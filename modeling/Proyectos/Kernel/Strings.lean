import Proyectos.Kernel.Yields

/-!
# A string that other calls store into

A write that copies into `write_buffer` and then prints the array with `%s`, with no
mutex (`Printer`). The printing goes on until it loads a 0, wherever other calls are
with their own copies. Such calls can be stopped one by one where each has put the
byte that is not to be a 0 (`fills_copy`), the one for the last index first, since a
copy runs upwards; and then a call prints past the array (`exists_overrun`). So no
call does so, in any interleaving, just if no call prints, or some byte of the array
is never put there as anything but 0 (`printsSafe_iff`).
-/

namespace SO

/-- The stores of a call's copy into `write_buffer`. -/
def Fop.copied : Fop → List Store
  | .write buf off =>
    if off ≥ BUFFER_SIZE then []
    else
      let n := min buf.bytes.length (BUFFER_SIZE - off.toNat)
      Buf.copyTo off n (buf.image n)
  | _ => []

/-- The call is a write that reaches its `%s`: its offset is inside the array and its
copy does not fail. -/
def Fop.Prints : Fop → Prop
  | .write buf off => off < BUFFER_SIZE ∧ (buf.missed = 0 ∨ buf.bytes = [])
  | _ => False

theorem Fop.prints_iff {buf : UserSrc} {off : Int} (h : ¬ off ≥ BUFFER_SIZE) :
    (Fop.write buf off).Prints ↔
      min buf.missed (min buf.bytes.length (BUFFER_SIZE - off.toNat)) = 0 := by
  rw [Prints, and_iff_right (not_le.mp h), ← List.length_eq_zero_iff]
  simp only [BUFFER_SIZE] at h ⊢
  omega

namespace Access

open Thread (Free)

variable {σ α : Type}

/-- No byte of `write_buffer` is 0. -/
def Full (d : Dev σ) : Prop := ∀ j, d.writeBuffer.get j ≠ 0

theorem found_full {js : List (Fin BUFFER_SIZE)} {str : Option (List UInt8)}
    (h : Found (σ := σ) Full js str) : str = none := by
  cases str with
  | none => rfl
  | some l =>
    obtain ⟨j, -, d, hd, h0⟩ := h
    exact absurd h0 (hd j)

theorem found_zero {i : Fin BUFFER_SIZE} {str : Option (List UInt8)}
    (h : Found (σ := σ) (fun d => d.writeBuffer.get i = 0) (List.finRange BUFFER_SIZE) str) :
    str ≠ none := by
  rintro rfl
  obtain ⟨d, h0, hn⟩ := h i (List.mem_finRange i)
  exact hn h0

/-- A store of a 0, or elsewhere. -/
theorem steady_store {w : Store} {i : Fin BUFFER_SIZE} (hw : w.1 = i → w.2 = 0) :
    Steady (fun _ => ()) (fun d : Dev σ => d.writeBuffer.get i = 0) fun d =>
      { d with writeBuffer := d.writeBuffer.store w } := by
  intro d hd
  refine ⟨rfl, ?_⟩
  show (d.writeBuffer.store w).get i = 0
  rw [Buf.get_store]
  split
  · rename_i e
    exact hw e.symm
  · exact hd

theorem Plain.append {ls ls' : List Line} (h' : Plain ls') (h : Plain ls) : Plain (ls ++ ls') :=
  List.forall_mem_append.mpr ⟨h, h'⟩

theorem plain_str {level : Level} {fmt : String} {str : Option (List UInt8)} :
    Plain [⟨level, fmt, [.s str]⟩] ↔ str ≠ none := by
  simp [Plain, Line.Terminated, eq_comm]

/-! ## Writes that print what they have copied into -/

/-- What leaves `write_buffer` alone and logs no line that runs past an array. -/
abbrev Quiet (x : Access σ α) (o : Out) : Prop :=
  Yields (·.writeBuffer) (fun _ => True) x o fun _ o' => Plain o.log → Plain o'.log

/-- A driver whose writes copy into `write_buffer` and print it, by what they do before the
copy, between the two, and from the string found on. -/
structure Printer (f : Fops σ) where
  pre : Access σ Unit
  mid : Nat → Access σ Unit
  post : Nat → Int → Option (List UInt8) → Access σ (Int × Int)
  far {buf : UserSrc} {off : Int} : off ≥ BUFFER_SIZE →
    f.write buf buf.bytes.length off = pre >>= fun _ => pure (0, off)
  fault {buf off n} : (Fop.write buf off).Passed → ¬ off ≥ BUFFER_SIZE →
    n = min buf.bytes.length (BUFFER_SIZE - off.toNat) → min buf.missed n ≠ 0 →
      f.write buf buf.bytes.length off =
        pre >>= fun _ => storeEach (Buf.copyTo off n (buf.image n)) >>= fun _ => pure (-EFAULT, off)
  ok {buf off n} : (Fop.write buf off).Passed → ¬ off ≥ BUFFER_SIZE →
    n = min buf.bytes.length (BUFFER_SIZE - off.toNat) → min buf.missed n = 0 →
      f.write buf buf.bytes.length off =
        pre >>= fun _ => storeEach (Buf.copyTo off n (buf.image n)) >>= fun _ => mid n >>= fun _ =>
          loadStr (List.finRange BUFFER_SIZE) >>= post n off
  quiet_pre : Quiet pre {}
  /-- Between the two nothing is stored but zeros. -/
  quiet_mid {n o} {I : Dev σ → Prop}
    (hI : ∀ i : Int, Steady (fun _ => ()) I fun d =>
      { d with writeBuffer := d.writeBuffer.store (i, 0) }) :
    Yields (fun _ => ()) I (mid n) o fun _ o' => Plain o.log → Plain o'.log
  /-- The string is logged. -/
  logs_post {n off str o} : Yields (·.writeBuffer) (fun _ => True) (post n off str) o fun _ o' =>
    ∃ ls, o'.log = o.log ++ ls ∧ (Plain ls ↔ str ≠ none)
  quiet {c} : (∀ buf off, c ≠ .write buf off) →
    Free (·.writeBuffer) (fun _ => True) (fun a => Plain a.out.log) (f.code c)

theorem Quiet.keeps {x : Access σ α} {o : Out} (h : Quiet x o) (J : Buf BUFFER_SIZE → Prop) :
    Yields (fun _ => ()) (fun d => J d.writeBuffer) x o fun _ o' => Plain o.log → Plain o'.log :=
  Free.keeps h J

/-! ## What a call can be left with -/

/-- A call that can be left where it has put a byte that is not 0 at the index `i`, and none
after it. -/
def Fills (p : Thread (Dev σ) Reply) (i : Fin BUFFER_SIZE) : Prop :=
  ∃ (q : Thread (Dev σ) (Unit × Out)) (r : Unit × Out → Thread (Dev σ) Reply), p = q.bind r ∧
    Free (fun _ => ()) (fun _ => True) (fun _ => True) q ∧
    ∀ d, (q.exec d).2.writeBuffer.get i ≠ 0 ∧
      ∀ j, i < j → (q.exec d).2.writeBuffer.get j = d.writeBuffer.get j

/-- A call that can be left where it is to print `write_buffer`. -/
def Overruns (p : Thread (Dev σ) Reply) : Prop :=
  ∃ (q : Thread (Dev σ) (Unit × Out)) (r : Unit × Out → Thread (Dev σ) Reply), p = q.bind r ∧
    Free (fun _ => ()) (fun _ => True) (fun _ => True) q ∧
    ∀ x, Free (fun _ => ()) Full (fun a => ¬ Plain a.out.log) (r x)

section Write

variable {f : Fops σ} {buf : UserSrc} {off : Int} {x : Access σ Unit}
  {k : Unit → Access σ (Int × Int)}

theorem code_bind (hx : f.write buf buf.bytes.length off = x >>= k) :
    f.code (.write buf off) =
      (x.run {}).bind fun r => ((k r.1).run r.2).bind fun r => .ret (.ofPair r) := by
  show ((f.write buf buf.bytes.length off).run {}).bind _ = _
  rw [hx, run_bind, Thread.bind_assoc]

/-- A copy can be left where it has put one of its bytes. -/
theorem fills_copy {n : Nat} {img : Nat → Option UInt8} (hpre : Quiet x {})
    (hx : f.write buf buf.bytes.length off = x >>= fun _ => storeEach (Buf.copyTo off n img) >>= k)
    {i : Fin BUFFER_SIZE} {v : UInt8} (hm : ((i : Int), v) ∈ Buf.copyTo off n img) (hv : v ≠ 0) :
    Fills (f.code (.write buf off)) i := by
  obtain ⟨l, r, e, hl⟩ := Buf.copyTo_split hm
  have hws : Buf.copyTo off n img = (l ++ [((i : Int), v)]) ++ r := by
    rw [e, List.append_assoc, List.singleton_append]
  have hcode : f.write buf buf.bytes.length off =
      (x >>= fun _ => storeEach (l ++ [((i : Int), v)])) >>= fun _ => storeEach r >>= k := by
    rw [hx, hws, storeEach_append]
    simp only [bind_assoc]
  have hfree : Yields (fun _ => ()) (fun _ => True)
      (x >>= fun _ => storeEach (l ++ [((i : Int), v)])) {} fun _ _ => True :=
    .bind ((hpre.keeps fun _ => True).mono fun _ _ _ =>
      yields_storeEach (fun _ _ _ _ => ⟨rfl, trivial⟩) trivial)
  refine ⟨_, _, code_bind hcode, hfree, fun d => ?_⟩
  have hb : ((x.run {}).exec d).2.writeBuffer = d.writeBuffer := (Free.exec hpre trivial).2
  rw [exec_bind, exec_storeEach, hb]
  refine ⟨?_, fun j hj => Buf.get_stores_of_ne _ fun w hw => ?_⟩
  · rw [Buf.stores_append, Buf.stores_cons, Buf.stores_nil, Buf.get_store, if_pos rfl]
    exact hv
  · have hji : (i : Int) < j := by exact_mod_cast hj
    rcases List.mem_append.mp hw with hw | hw
    · exact ((hl w hw).trans hji).ne
    · rw [List.mem_singleton.mp hw]
      exact hji.ne

/-- A write can be left where it is to print. -/
theorem overruns_print (hx : f.write buf buf.bytes.length off = x >>= k)
    (hpre : Yields (fun _ => ()) (fun _ => True) x {} fun _ _ => True)
    (hk : ∀ o, Yields (fun _ => ()) Full (k ()) o fun _ o' => ¬ Plain o'.log) :
    Overruns (f.code (.write buf off)) :=
  ⟨_, _, code_bind hx, hpre, fun x => Free.bind (hk x.2) fun _ h => .ret h⟩

end Write

namespace Printer

variable {f : Fops σ} (h : Printer f)

include h

theorem fills {c : Fop} (hc : c.Passed) {i : Fin BUFFER_SIZE} {v : UInt8}
    (hm : ((i : Int), v) ∈ c.copied) (hv : v ≠ 0) : Fills (f.code c) i := by
  cases c with
  | write buf off =>
    rw [Fop.copied] at hm
    split at hm <;> [cases hm; skip]
    rename_i hoff
    by_cases hf : min buf.missed (min buf.bytes.length (BUFFER_SIZE - off.toNat)) = 0
    · exact fills_copy h.quiet_pre (h.ok hc hoff rfl hf) hm hv
    · exact fills_copy h.quiet_pre (h.fault hc hoff rfl hf) hm hv
  | _ => cases hm

theorem overruns {c : Fop} (hc : c.Passed) (hp : c.Prints) : Overruns (f.code c) := by
  cases c with
  | write buf off =>
    have hoff : ¬ off ≥ BUFFER_SIZE := not_le.mpr hp.1
    generalize hn : min buf.bytes.length (BUFFER_SIZE - off.toNat) = n
    have hf : min buf.missed n = 0 := hn ▸ (Fop.prints_iff hoff).mp hp
    have hcode : f.write buf buf.bytes.length off =
        (h.pre >>= fun _ => storeEach (Buf.copyTo off n (buf.image n)) >>= fun _ => h.mid n) >>=
          fun _ => loadStr (List.finRange BUFFER_SIZE) >>= h.post n off := by
      rw [h.ok hc hoff hn.symm hf]
      simp only [bind_assoc]
    refine overruns_print hcode ?_ fun o => ?_
    · refine .bind (Free.mono (h.quiet_pre.keeps fun _ => True) fun _ _ => ?_)
      refine .bind (yields_storeEach (fun _ _ _ _ => ⟨rfl, trivial⟩) ?_)
      exact (h.quiet_mid fun _ _ _ => ⟨rfl, trivial⟩).mono fun _ _ _ => trivial
    · refine .bind (yields_loadStr fun str hstr => ?_)
      rw [found_full hstr]
      refine Free.mono (Free.keeps h.logs_post fun b => ∀ j, b.get j ≠ 0) fun r hr hp => ?_
      obtain ⟨ls, hls, hiff⟩ := hr
      have hplain : Plain ls := fun l hl => hp l (hls ▸ List.mem_append_right _ hl)
      exact hiff.mp hplain rfl
  | _ => exact hp.elim

/-- Of a write without a copy of anything but 0 to the index `i`. -/
theorem calm_write {buf : UserSrc} {off : Int} (hc : (Fop.write buf off).Passed)
    {i : Fin BUFFER_SIZE} (hz : ∀ v, ((i : Int), v) ∈ (Fop.write buf off).copied → v = 0) :
    Yields (fun _ => ()) (fun d : Dev σ => d.writeBuffer.get i = 0)
      (f.write buf buf.bytes.length off) {} fun _ o => Plain o.log := by
  have hpre := h.quiet_pre.keeps fun b => b.get i = 0
  by_cases hoff : off ≥ BUFFER_SIZE
  · rw [h.far hoff]
    exact .bind (hpre.mono fun _ _ hp => yields_pure (hp plain_nil))
  rw [Fop.copied, if_neg hoff] at hz
  generalize hn : min buf.bytes.length (BUFFER_SIZE - off.toNat) = n at hz
  have hcopy := fun w (hw : w ∈ Buf.copyTo off n (buf.image n)) =>
    steady_store (σ := σ) (w := w) (i := i) fun e => hz w.2 (e ▸ hw)
  by_cases hf : min buf.missed n = 0
  · rw [h.ok hc hoff hn.symm hf]
    refine .bind (hpre.mono fun _ o hp => .bind (yields_storeEach hcopy ?_))
    refine .bind ((h.quiet_mid fun _ => steady_store fun _ => rfl).mono fun _ o' hp' => ?_)
    refine .bind (yields_loadStr fun str hstr => ?_)
    refine Free.mono (Free.keeps h.logs_post fun b => b.get i = 0) fun r hr => ?_
    obtain ⟨ls, hls, hiff⟩ := hr
    rw [hls]
    exact (hiff.mpr (found_zero hstr)).append (hp' (hp plain_nil))
  · rw [h.fault hc hoff hn.symm hf]
    exact .bind (hpre.mono fun _ o hp => .bind (yields_storeEach hcopy (yields_pure (hp plain_nil))))

/-- Without a copy of anything but 0 to the index `i`, nothing is printed past the array. -/
theorem calm {c : Fop} (hc : c.Passed) {i : Fin BUFFER_SIZE}
    (hz : ∀ v, ((i : Int), v) ∈ c.copied → v = 0) : Free (fun _ => ())
      (fun d => d.writeBuffer.get i = 0) (fun a => Plain a.out.log) (f.code c) := by
  by_cases hw : ∃ buf off, c = .write buf off
  · obtain ⟨buf, off, rfl⟩ := hw
    exact Free.bind (h.calm_write hc hz) fun _ hr => .ret hr
  · exact (h.quiet fun buf off e => hw ⟨buf, off, e⟩).keeps fun b => b.get i = 0

/-- A call that does not get to its `%s` prints nothing past the array. -/
theorem unprinting {c : Fop} (hc : c.Passed) (hp : ¬ c.Prints) :
    Free (fun _ => ()) (fun _ => True) (fun a => Plain a.out.log) (f.code c) := by
  by_cases hw : ∃ buf off, c = .write buf off
  swap
  · exact (h.quiet fun buf off e => hw ⟨buf, off, e⟩).keeps fun _ => True
  obtain ⟨buf, off, rfl⟩ := hw
  have hpre := h.quiet_pre.keeps fun _ => True
  have hwrite : Yields (fun _ => ()) (fun _ : Dev σ => True) (f.write buf buf.bytes.length off) {}
      fun _ o => Plain o.log := by
    by_cases hoff : off ≥ BUFFER_SIZE
    · rw [h.far hoff]
      exact .bind (hpre.mono fun _ _ hp => yields_pure (hp plain_nil))
    · rw [h.fault hc hoff rfl fun hf => hp ((Fop.prints_iff hoff).mpr hf)]
      exact .bind (hpre.mono fun _ o hp => .bind (yields_storeEach
        (fun _ _ _ _ => ⟨rfl, trivial⟩) (yields_pure (hp plain_nil))))
  exact Free.bind hwrite fun _ hr => .ret hr

end Printer

/-! ## Runs -/

section Runs

variable {code : Fop → Thread (Dev σ) Reply} {P : Fop → Prop} {s : Threads (Dev σ) Fop Reply}

/-- No line logged runs past an array, in any interleaving of calls that satisfy `P`. -/
def PrintsSafe (code : Fop → Thread (Dev σ) Reply) (s : Threads (Dev σ) Fop Reply)
    (P : Fop → Prop) : Prop :=
  ∀ es, (∀ e ∈ es, e.Starts P) → ∀ e k c a,
    (Threads.move code (Run.after (Threads.move code) s es) e).2 = .returned k c a → Plain a.out.log

/-- One more byte of the array is not 0, and those after it are what they were. -/
theorem reaches_fill {c : Fop} (hc : P c) {i : Fin BUFFER_SIZE} (hf : Fills (code c) i) {k : Nat}
    (hk : s.todo k = none) : ∃ t, Threads.Reaches code P s t ∧ (∀ j, j ≠ k → t.todo j = s.todo j) ∧
      t.shared.writeBuffer.get i ≠ 0 ∧
      ∀ j, i < j → t.shared.writeBuffer.get j = s.shared.writeBuffer.get j := by
  obtain ⟨q, r, hcode, hq, hexec⟩ := hf
  obtain ⟨t, hr, ht, hs⟩ := Threads.reaches_bind code (P := P) (s := s.goOn k c (code c)) (k := k)
    (c := c) trivial hq ((Threads.goOn_todo ..).trans (by rw [hcode]))
  refine ⟨t, (Threads.reaches_start hk hc).trans hr, fun j hj => ?_, ?_, fun j hj => ?_⟩
  · rw [ht, Function.update_of_ne hj, Threads.goOn_todo_of_ne s k c _ hj]
  · rw [hs]
    exact (hexec _).1
  · rw [hs]
    exact (hexec _).2 j hj

/-- The bytes from the index `m` on are not 0: those of the last indices are put first. -/
theorem exists_filled (hf : ∀ i, ∃ c, P c ∧ Fills (code c) i) (h0 : ∀ k, k ≠ 0 → s.todo k = none)
    (n m : Nat) (hn : m + n = BUFFER_SIZE) : ∃ t, Threads.Reaches code P s t ∧
      (∀ k ≤ m, t.todo k = s.todo k) ∧
      ∀ j : Fin BUFFER_SIZE, m ≤ j → t.shared.writeBuffer.get j ≠ 0 := by
  induction n generalizing m with
  | zero => exact ⟨s, ⟨[], nofun, rfl⟩, fun _ _ => rfl, fun j hj => absurd j.isLt (by omega)⟩
  | succ n ih =>
    obtain ⟨t, hr, ht, hfull⟩ := ih (m + 1) (by omega)
    let i : Fin BUFFER_SIZE := ⟨m, by omega⟩
    obtain ⟨c, hc, hfc⟩ := hf i
    have hk : t.todo (m + 1) = none := (ht _ le_rfl).trans (h0 _ (Nat.succ_ne_zero m))
    -- on its way to `m` this copy may put zeros, but only before it
    obtain ⟨u, hu, htu, hi, hj⟩ := reaches_fill hc hfc hk
    refine ⟨u, hr.trans hu, fun k hkm => (htu k (by omega)).trans (ht k (by omega)), fun j hjm => ?_⟩
    rcases eq_or_lt_of_le hjm with e | hlt
    · obtain rfl : i = j := Fin.ext e
      exact hi
    · rw [hj j hlt]
      exact hfull j hlt

/-- A call that is to print, with all of the array filled before it goes on. -/
theorem exists_overrun (hf : ∀ i, ∃ c, P c ∧ Fills (code c) i) (h0 : ∀ k, s.todo k = none) {c : Fop}
    (hc : P c) (ho : Overruns (code c)) : ¬ PrintsSafe code s P := by
  intro hsafe
  obtain ⟨q, r, hcode, hq, hprint⟩ := ho
  obtain ⟨t, hr, ht, -⟩ := Threads.reaches_bind code (P := P) (s := s.goOn 0 c (code c)) (k := 0)
    (c := c) trivial hq ((Threads.goOn_todo ..).trans (by rw [hcode]))
  have ht0 : ∀ k, k ≠ 0 → t.todo k = none := fun k hk => by
    rw [ht, Function.update_of_ne hk, Threads.goOn_todo_of_ne s 0 c _ hk, h0]
  -- while the call is stopped before its `%s`, whatever it has stored is stored over
  obtain ⟨u, hu, htu, hfull⟩ := exists_filled hf ht0 BUFFER_SIZE 0 (Nat.zero_add _)
  obtain ⟨x, hx⟩ : ∃ x, t.todo 0 = some (c, r x) := ⟨_, by rw [ht, Function.update_self]⟩
  have hu0 : u.todo 0 = some (c, r x) := (htu 0 le_rfl).trans hx
  have hu' : Full u.shared := fun j => hfull j (Nat.zero_le _)
  obtain ⟨n, hn⟩ := Threads.alone_free code (hprint x) hu' hu0
  obtain ⟨es, he, hes⟩ := ((Threads.reaches_start (h0 0) hc).trans hr).trans
    (hu.trans (Threads.reaches_steps hn))
  have hret : (Run.after (Threads.move code) s es).todo 0 =
      some (c, .ret ((r x).exec u.shared).1) := by
    rw [hes]
    exact Threads.goOn_todo u 0 c _
  refine ((hprint x).exec hu').1 (hsafe es he (.step 0) 0 c _ ?_)
  rw [Threads.move_step hret]
  rfl

/-- What every call replies. -/
theorem printsSafe_of_free {I : Dev σ → Prop} (hI : I s.shared) (h0 : ∀ k, s.todo k = none)
    (h : ∀ c, P c → Free (fun _ => ()) I (fun a => Plain a.out.log) (code c)) :
    PrintsSafe code s P := by
  intro es he e k c a ht
  have hs : Threads.Unlocked (fun _ => ()) I (fun _ a => Plain a.out.log) s :=
    ⟨hI, fun k c p hp => absurd ((h0 k).symm.trans hp) nofun⟩
  exact (hs.after h he).reply ht

/-- No call prints past the array, in any interleaving, just if no call prints or some byte of
the array is never put there as anything but 0. -/
theorem Printer.printsSafe_iff {f : Fops σ} (h : Printer f) (h0 : ∀ k, s.todo k = none)
    (hz : ∀ i, s.shared.writeBuffer.get i = 0) (hP : ∀ c, P c → c.Passed) :
    PrintsSafe f.code s P ↔ (∀ c, P c → ¬ c.Prints) ∨
      ∃ i : Fin BUFFER_SIZE, ∀ c, P c → ∀ v, ((i : Int), v) ∈ c.copied → v = 0 := by
  constructor
  · rw [or_iff_not_imp_left]
    intro hsafe hprints
    by_contra hgap
    push Not at hprints hgap
    obtain ⟨c, hc, hp⟩ := hprints
    refine exists_overrun (fun i => ?_) h0 hc (h.overruns (hP c hc) hp) hsafe
    obtain ⟨c', hc', v, hm, hv⟩ := hgap i
    exact ⟨c', hc', h.fills (hP c' hc') hm hv⟩
  · rintro (hq | ⟨i, hi⟩)
    · exact printsSafe_of_free (I := fun _ => True) trivial h0 fun c hc =>
        h.unprinting (hP c hc) (hq c hc)
    · exact printsSafe_of_free (hz i) h0 fun c hc => h.calm (hP c hc) (hi c hc)

end Runs

end Access

end SO
