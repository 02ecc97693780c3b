import Proyectos.Kernel.Vfs

/-!
# A program that writes all of a payload

`write` may accept less than it is given. A program with more to write calls it
again with the rest, until everything is accepted or an error is returned
(`writeAll`). `others i` are the calls made on the device before the program's
`i`-th write.
-/

namespace SO.Driver

variable {σ : Type}

/-- How such a program ends: what each of its writes accepted, the error
returned, and the state left. -/
structure Written (σ : Type) where
  chunks : List (List UInt8)
  error : Option Int
  sys : Sys σ

/-- The program, for at most `fuel` writes from its `i`-th on; `none` if it has
not ended by then. -/
def writeAll (d : Driver σ) (k : Nat) (others : Nat → List Call) :
    Nat → Nat → Sys σ → List UInt8 → Option (Written σ)
  | _, _, s, [] => some ⟨[], none, s⟩
  | 0, _, _, _ :: _ => none
  | fuel + 1, i, s, b :: l =>
    let rest := b :: l
    let r := d.step (Run.after d.step s (others i)) (.write k none ⟨rest.take MAX_RW_COUNT, 0, []⟩)
    if r.2.ret < 0 then some ⟨[], some r.2.ret, r.1⟩
    else
      (writeAll d k others fuel (i + 1) r.1 (rest.drop r.2.ret.toNat)).map fun w =>
        { w with chunks := rest.take r.2.ret.toNat :: w.chunks }

variable {d : Driver σ} {k : Nat} {others : Nat → List Call}

@[simp] theorem writeAll_nil (fuel i : Nat) (s : Sys σ) :
    writeAll d k others fuel i s [] = some ⟨[], none, s⟩ := by
  cases fuel <;> rfl

/-- A write that accepts `n` bytes. -/
theorem writeAll_step {fuel i n : Nat} {s : Sys σ} {rest : List UInt8} (h : rest ≠ [])
    {r : Sys σ × Event} (hr : d.step (Run.after d.step s (others i))
      (.write k none ⟨rest.take MAX_RW_COUNT, 0, []⟩) = r) (hn : r.2.ret = n) :
    writeAll d k others (fuel + 1) i s rest =
      (writeAll d k others fuel (i + 1) r.1 (rest.drop n)).map fun w =>
        { w with chunks := rest.take n :: w.chunks } := by
  subst hr
  cases rest with
  | nil => exact absurd rfl h
  | cons b l =>
    have h0 : ¬ (d.step (Run.after d.step s (others i))
        (.write k none ⟨(b :: l).take MAX_RW_COUNT, 0, []⟩)).2.ret < 0 := by
      rw [hn]; omega
    rw [writeAll, if_neg h0, hn, Int.toNat_natCast]

/-- A program that ends ends the same with more writes allowed. -/
theorem writeAll_mono {fuel fuel' i : Nat} (h : fuel ≤ fuel') {s : Sys σ} {p : List UInt8}
    {w : Written σ} (hw : writeAll d k others fuel i s p = some w) :
    writeAll d k others fuel' i s p = some w := by
  induction fuel generalizing fuel' i s p w with
  | zero =>
    cases p with
    | nil => rwa [writeAll_nil] at hw ⊢
    | cons b l => cases hw
  | succ fuel ih =>
    obtain ⟨f, rfl⟩ : ∃ f, fuel' = f + 1 := ⟨fuel' - 1, by omega⟩
    cases p with
    | nil => exact hw
    | cons b l =>
      simp only [writeAll] at hw ⊢
      split at hw
      · rename_i h0
        rw [if_pos h0]
        exact hw
      · rename_i h0
        obtain ⟨w', hw', rfl⟩ := Option.map_eq_some_iff.mp hw
        rw [if_neg h0, ih (by omega) hw', Option.map_some]

/-! ## The others' calls -/

/-- The calls neither write nor close session `k`. -/
def Aside (k : Nat) (cs : List Call) : Prop :=
  ∀ c ∈ cs, c ≠ .close k ∧ ∀ m at? buf, c ≠ .write m at? buf

theorem mem_opens_step {s : Sys σ} {k : Nat} (h : k ∈ s.opens) {c : Call} (hc : c ≠ .close k) :
    k ∈ (d.step s c).1.opens := by
  have ho := d.step_outcome s c
  generalize d.step s c = r at ho
  cases ho with
  | opn => exact Finset.mem_insert_of_mem h
  | close => exact Finset.mem_erase.mpr ⟨fun e => hc (by rw [e]), h⟩
  | refused | notOpened | read | write => exact h

theorem mem_opens_aside {s : Sys σ} {k : Nat} (h : k ∈ s.opens) {cs : List Call} (hc : Aside k cs) :
    k ∈ (Run.after d.step s cs).opens :=
  Run.inv_after (I := fun s : Sys σ => k ∈ s.opens) (P := (· ≠ .close k))
    (fun _ _ hs hc => mem_opens_step hs hc) h fun c hm => (hc c hm).1

end SO.Driver
