import Proyectos.Kernel.Client
import Proyectos.Proof.Apart
import Proyectos.Proof.Pokemon.Bounds
import Proyectos.Proof.Toggle.Log

/-!
# When a program that writes all of a payload ends

`luffy`, `madre`, `chaleco` and `pokemon` write at the file offset (`Appends`): a
write is cut to what is left of the array, and one at the array's end is
accepted with no bytes and no error. A program that goes on until all of its payload
is accepted (`writeAll`) then repeats that last write for ever (`writeAll_stuck`). So
it ends just if the payload fits what is left of the array when it starts
(`ends_iff`).
-/

namespace SO.Driver

variable {σ : Type} {d : Driver σ}

/-- The calls are other sessions'. -/
def Elsewhere (k : Nat) (cs : List Call) : Prop := ∀ c ∈ cs, c.session ≠ k

/-- The program ends. -/
def Ends (d : Driver σ) (k : Nat) (others : Nat → List Call) (s : Sys σ)
    (payload : List UInt8) : Prop :=
  ∃ w n, ∀ fuel ≥ n, writeAll d k others fuel 0 s payload = some w

/-- The payload fits the array after the session's offset. -/
def Room (s : Sys σ) (k : Nat) (payload : List UInt8) : Prop :=
  payload = [] ∨ s.pos k + payload.length ≤ BUFFER_SIZE

theorem view_elsewhere (hd : d.Opens) (s : Sys σ) {k : Nat} {cs : List Call} (h : Elsewhere k cs) :
    view (Run.after d.step s cs) k = view s k :=
  Run.inv_after (I := fun s' : Sys σ => view s' k = view s k) (P := fun c : Call => c.session ≠ k)
    (fun _ _ hs hc => (view_of_ne hd hc).trans hs) rfl h

/-- One of the program's writes. -/
theorem step_append (hd : d.Opens) (ha : d.Appends) {s : Sys σ} {k : Nat} {cs : List Call}
    (ho : Elsewhere k cs) (hk : k ∈ s.opens) (h0 : 0 ≤ s.pos k) {payload : List UInt8} {n : Nat}
    (hn : min payload.length (BUFFER_SIZE - (s.pos k).toNat) = n) {r : Sys σ × Event}
    (hr : d.step (Run.after d.step s cs) (.write k none ⟨payload.take MAX_RW_COUNT, 0, []⟩) = r) :
    r.2.ret = n ∧ k ∈ r.1.opens ∧ r.1.pos k = s.pos k + n := by
  have hv := view_elsewhere hd s ho
  generalize Run.after d.step s cs = s₁ at hr hv
  obtain ⟨hst, hpos⟩ := Prod.mk.inj hv
  have hopen := (status_eq_iff.mp hst).1
  have hlen : (payload.take MAX_RW_COUNT).length ≤ MAX_RW_COUNT := by
    rw [List.length_take]
    exact min_le_left _ _
  have hcut : min (payload.take MAX_RW_COUNT).length (BUFFER_SIZE - (s.pos k).toNat) = n := by
    rw [List.length_take, ← hn]
    simp only [MAX_RW_COUNT, BUFFER_SIZE]
    omega
  rw [← hpos] at h0 hcut ⊢
  exact ha.step (hopen.mpr hk) h0 rfl hlen hcut hr

variable {k : Nat} {others : Nat → List Call}

/-- At the array's end the program never ends: each write accepts nothing. -/
theorem writeAll_stuck (hd : d.Opens) (ha : d.Appends) (ho : ∀ i, Elsewhere k (others i))
    {payload : List UInt8} (hp : payload ≠ []) (fuel i : Nat) {s : Sys σ} (hk : k ∈ s.opens)
    (h : s.pos k ≥ BUFFER_SIZE) : writeAll d k others fuel i s payload = none := by
  have hz : min payload.length (BUFFER_SIZE - (s.pos k).toNat) = 0 := by
    simp only [BUFFER_SIZE] at h ⊢
    omega
  induction fuel generalizing i s with
  | zero =>
    cases payload with
    | nil => exact absurd rfl hp
    | cons b l => rfl
  | succ fuel ih =>
    obtain ⟨hret, hk', hpos⟩ := step_append hd ha (ho i) hk (by omega) hz rfl
    have h' : (d.step (Run.after d.step s (others i))
        (.write k none ⟨payload.take MAX_RW_COUNT, 0, []⟩)).1.pos k ≥ BUFFER_SIZE := by
      rw [hpos, Nat.cast_zero, add_zero]
      exact h
    rw [writeAll_step hp rfl hret, List.drop_zero, ih (i + 1) hk' h' (by rw [hpos]; simpa using hz)]
    rfl

/-- From every state, with any calls of other sessions in between: the program ends
just if its payload fits what is left of the array. -/
theorem ends_iff (hd : d.Opens) (ha : d.Appends) (ho : ∀ i, Elsewhere k (others i)) {s : Sys σ}
    (hk : k ∈ s.opens) (h0 : 0 ≤ s.pos k) (payload : List UInt8) :
    Ends d k others s payload ↔ Room s k payload := by
  rcases eq_or_ne payload [] with rfl | hp
  · exact iff_of_true ⟨_, 0, fun fuel _ => writeAll_nil fuel 0 s⟩ (.inl rfl)
  generalize hn : min payload.length (BUFFER_SIZE - (s.pos k).toNat) = n
  generalize hr : d.step (Run.after d.step s (others 0))
    (.write k none ⟨payload.take MAX_RW_COUNT, 0, []⟩) = r
  obtain ⟨hret, hk', hpos⟩ := step_append hd ha (ho 0) hk h0 hn hr
  have hstep : ∀ fuel, writeAll d k others (fuel + 1) 0 s payload = _ := fun fuel =>
    writeAll_step hp hr hret
  rw [Room, or_iff_right hp]
  by_cases hfit : s.pos k + payload.length ≤ BUFFER_SIZE
  · refine iff_of_true ⟨⟨[payload.take n], none, r.1⟩, 1, fun fuel hf => ?_⟩ hfit
    obtain ⟨f, rfl⟩ : ∃ f, fuel = f + 1 := ⟨fuel - 1, by omega⟩
    have hall : payload.length ≤ n := by omega
    rw [hstep, List.drop_of_length_le hall, writeAll_nil]
    rfl
  · refine iff_of_false (fun ⟨w, m, hm⟩ => ?_) hfit
    have hpos' : 0 < payload.length := List.length_pos_iff.mpr hp
    have hrest : payload.drop n ≠ [] := by
      rw [← List.length_pos_iff, List.length_drop]
      omega
    have hw := hm (m + 1) (Nat.le_succ m)
    rw [hstep, writeAll_stuck hd ha ho hrest m 1 hk' (by rw [hpos]; omega)] at hw
    cases hw

/-! ## A program alone, from the start of the array -/

section

variable {s : Sys σ} {p : List UInt8}

/-- A payload that fits is written in one call. -/
theorem writeAll_whole (hd : d.Opens) (ha : d.Appends) (hk : k ∈ s.opens) (h0 : s.pos k = 0)
    (hp : p ≠ []) (hf : p.length ≤ BUFFER_SIZE) (fuel : Nat) :
    writeAll d k (fun _ => []) (fuel + 1) 0 s p =
      some ⟨[p], none, (d.step s (.write k none ⟨p.take MAX_RW_COUNT, 0, []⟩)).1⟩ := by
  have ho : Elsewhere k [] := fun _ hc => nomatch hc
  have hn : min p.length (BUFFER_SIZE - (s.pos k).toNat) = p.length := by
    rw [h0]
    exact min_eq_left hf
  generalize hr : d.step (Run.after d.step s []) (.write k none ⟨p.take MAX_RW_COUNT, 0, []⟩) = r
  rw [show d.step s _ = r from hr]
  have hw : writeAll d k (fun _ => []) (fuel + 1) 0 s p = _ :=
    writeAll_step hp hr (step_append hd ha ho hk h0.ge hn hr).1
  rw [hw, List.drop_length, List.take_length, writeAll_nil]
  rfl

/-- One that does not is never written. -/
theorem writeAll_none (hd : d.Opens) (ha : d.Appends) (hk : k ∈ s.opens) (h0 : s.pos k = 0)
    (hp : p ≠ []) (hf : ¬ p.length ≤ BUFFER_SIZE) (fuel : Nat) :
    writeAll d k (fun _ => []) fuel 0 s p = none := by
  by_contra hne
  obtain ⟨w, hw⟩ := Option.ne_none_iff_exists'.mp hne
  have ho : Nat → Elsewhere k [] := fun _ _ hc => nomatch hc
  have hroom := (ends_iff hd ha ho hk h0.ge p).mp ⟨w, fuel, fun f hf => writeAll_mono hf hw⟩
  rcases hroom with rfl | hroom
  · exact hp rfl
  · rw [h0] at hroom
    exact hf (by omega)

end

end SO.Driver

namespace SO.Proof

open Driver (Elsewhere Ends Room)

/-! ## The four drivers -/

open Impl.Toggle (luffy madre chaleco luffyTexts madreTexts chalecoTexts)

/-- A program that writes a payload through session `k`, from every state and every
offset the VFS allows, whatever other sessions do in between: it ends just if
the payload fits what is left of the array. -/
theorem writing_ends_iff (k : Nat) (others : Nat → List Call) (ho : ∀ i, Elsewhere k (others i))
    (payload : List UInt8) :
    (∀ s : Sys Impl.Toggle.Vars, k ∈ s.opens → 0 ≤ s.pos k →
        (Ends luffy k others s payload ↔ Room s k payload) ∧
          (Ends madre k others s payload ↔ Room s k payload) ∧
          (Ends chaleco k others s payload ↔ Room s k payload)) ∧
      ∀ s : Sys Impl.Pokemon.Vars, k ∈ s.opens → 0 ≤ s.pos k →
        (Ends Impl.Pokemon.driver k others s payload ↔ Room s k payload) := by
  refine ⟨fun s hk h0 => ⟨?_, ?_, ?_⟩, fun s hk h0 => ?_⟩
  · exact Driver.ends_iff (Toggle.driver_opens luffyTexts) (Toggle.appends luffyTexts) ho hk h0 _
  · exact Driver.ends_iff (Toggle.driver_opens madreTexts) (Toggle.appends madreTexts) ho hk h0 _
  · exact Driver.ends_iff (Toggle.driver_opens chalecoTexts) (Toggle.appends chalecoTexts) ho hk h0 _
  · exact Driver.ends_iff Pokemon.driver_opens Pokemon.appends ho hk h0 _

/-- A payload that ends where the array does, through a session that has written two
bytes. -/
theorem writing_ends_full :
    Ends luffy 0 (fun _ => []) (luffy.after [.opn 0, .write 0 none ⟨[0x68, 0x6f], 0, []⟩])
      (Driver.filler.bytes.drop 2) := by
  have hpos : (luffy.after [.opn 0, .write 0 none ⟨[0x68, 0x6f], 0, []⟩]).pos 0 = 2 := by decide
  refine ((writing_ends_iff 0 (fun _ => []) (fun _ c hc => by cases hc) _).1 _ (by decide)
    (by rw [hpos]; decide)).1.mpr (.inr ?_)
  rw [hpos, List.length_drop, Driver.length_filler]
  decide

/-- One byte more than the array has, through a new session. -/
theorem writing_never_ends :
    ¬ Ends luffy 0 (fun _ => []) (luffy.after [.opn 0]) (0x41 :: Driver.filler.bytes) ∧
      ¬ Ends madre 0 (fun _ => []) (madre.after [.opn 0]) (0x41 :: Driver.filler.bytes) ∧
      ¬ Ends chaleco 0 (fun _ => []) (chaleco.after [.opn 0]) (0x41 :: Driver.filler.bytes) ∧
      ¬ Ends Impl.Pokemon.driver 0 (fun _ => []) (Impl.Pokemon.driver.after [.opn 0])
        (0x41 :: Driver.filler.bytes) := by
  have ho : ∀ i : Nat, Elsewhere 0 ((fun _ => []) i) := fun _ c hc => by cases hc
  have hstuck {σ : Type} {d : Driver σ} (hd : d.Opens) (ha : d.Appends) {s : Sys σ} (hk : 0 ∈ s.opens)
      (hs : s.pos 0 = 0) : ¬ Ends d 0 (fun _ => []) s (0x41 :: Driver.filler.bytes) := by
    rw [Driver.ends_iff hd ha ho hk hs.ge, Room, hs, List.length_cons, Driver.length_filler]
    simp [BUFFER_SIZE]
  exact ⟨hstuck (Toggle.driver_opens luffyTexts) (Toggle.appends luffyTexts) (by decide) (by decide),
    hstuck (Toggle.driver_opens madreTexts) (Toggle.appends madreTexts) (by decide) (by decide),
    hstuck (Toggle.driver_opens chalecoTexts) (Toggle.appends chalecoTexts) (by decide) (by decide),
    hstuck Pokemon.driver_opens Pokemon.appends (by decide) (by decide)⟩

end SO.Proof
