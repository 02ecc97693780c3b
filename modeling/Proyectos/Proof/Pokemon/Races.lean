import Proyectos.Framework.Mending
import Proyectos.Proof.Pokemon.Mode
import Proyectos.Proof.Pokemon.Ways

/-!
# `pokemon`: writes that race

`poke_write` stores its bytes and then does what the first byte of `write_buffer`
asks for, with no mutex. A write that stores that byte and tests it may be too
late to set the mode: another write may have stored the other directive, and
obeyed it, in between. Once all calls are over the mode is the one that the byte
asks for, in every interleaving, exactly if the clients never write both
directives and no `'1'` is left by a copy that fails (`agrees_iff`).
-/

namespace SO.Access.Pokemon

open SO.Impl.Pokemon (Vars driver)
open SO.Spec.Mode (asks)
open Thread (Free Mends Minds)

/-- The call stores `v` into the first byte of `write_buffer`. -/
def Puts (v : UInt8) (c : Fop) : Prop := (0, v) ∈ (driver.alone c).out.stores

/-- The call fails. -/
def Fails (c : Fop) : Prop := (driver.alone c).ret < 0

/-- The mode is the one that the first byte of `write_buffer` asks for, if it asks for one. -/
def Agrees (d : Dev Vars) : Prop := ∀ m, asks (d.writeBuffer.get 0) = some m → d.vars.stream = m

/-! ## Calls that mend the mode -/

/-- Calls that satisfy `P` keep `I`, and `F` is broken by a `'1'` that is to be obeyed yet. -/
structure Abides (I F : Dev Vars → Prop) (P : Fop → Prop) : Prop where
  puts : ∀ c, P c → ∀ w ∈ (driver.alone c).out.stores, ∀ d, I d →
    I { d with writeBuffer := d.writeBuffer.store w }
  fails : ∀ c, P c → Fails c → ∀ w ∈ (driver.alone c).out.stores, ∀ d, I d → F d →
    F { d with writeBuffer := d.writeBuffer.store w }
  broken : ∀ d, I d → ¬ F d → d.writeBuffer.get 0 = '1'.toUInt8
  on : ∀ d d', I d → d.writeBuffer.get 0 = '1'.toUInt8 → I d' →
    I { d' with vars := { d'.vars with stream := 1 } } ∧
      F { d' with vars := { d'.vars with stream := 1 } }
  off : ∀ d d', I d → d.writeBuffer.get 0 = '0'.toUInt8 → I d' →
    I { d' with vars := { d'.vars with stream := 0 } } ∧
      (F d' → F { d' with vars := { d'.vars with stream := 0 } })

section Abides

variable {I F : Dev Vars → Prop} {P : Fop → Prop} (h : Abides I F P) {o : Out}

theorem minds_storeEach {ws : List Store}
    (hI : ∀ w ∈ ws, ∀ d, I d → I { d with writeBuffer := d.writeBuffer.store w })
    (hF : ∀ w ∈ ws, ∀ d, I d → F d → F { d with writeBuffer := d.writeBuffer.store w }) :
    Minds I F ((storeEach ws : Access Vars Unit).run o) := by
  induction ws generalizing o with
  | nil => exact .ret _
  | cons w ws ih =>
    refine .act (hI w List.mem_cons_self) (fun d hd hf hn => ?_) fun _ _ => ?_
    · exact absurd (hF w List.mem_cons_self d hd hf) hn
    · exact ih (fun v hv => hI v (List.mem_cons_of_mem _ hv)) fun v hv =>
        hF v (List.mem_cons_of_mem _ hv)

include h

/-- What a write does once it has loaded the byte breaks nothing. -/
theorem minds_heed (r : Int × Int) {d : Dev Vars} (hd : I d) :
    Minds I F ((heed r (d.writeBuffer.get 0)).run o) := by
  simp only [heed, run_bind, run_ite]
  split
  · rename_i h1
    exact .act (fun d' hd' => (h.on d d' hd h1 hd').1)
      (fun d' hd' _ hn => absurd (h.on d d' hd h1 hd').2 hn) fun _ _ => .ret _
  · refine .act (fun _ hd => hd) (fun _ _ hf hn => absurd hf hn) fun s hs => ?_
    rw [Thread.ret_bind]
    split
    · rename_i h0
      exact .act (fun d' hd' => (h.off s d' hs h0 hd').1)
        (fun d' hd' hf hn => absurd ((h.off s d' hs h0 hd').2 hf) hn) fun _ _ => .ret _
    · exact .ret _

/-- The test of the byte mends what is broken. -/
theorem mends_test (r : Int × Int) :
    Mends I F ((load (·.writeBuffer.get 0) >>= heed r).run o) := by
  refine .act fun d hd hn => ?_
  have h1 := h.broken d hd hn
  simp only [Thread.ret_bind, h1, heed, run_bind, if_true]
  exact .act fun d' hd' hn' => absurd (h.on d d' hd h1 hd').2 hn'

theorem minds_test (r : Int × Int) :
    Minds I F ((load (·.writeBuffer.get 0) >>= heed r).run o) :=
  .act (fun _ hd => hd) (fun _ _ hf hn => absurd hf hn) fun _ hd => minds_heed h r hd

theorem minds_write {buf : UserSrc} {off : Int} (hc : P (.write buf off)) :
    Minds I F ((pokeWrite buf buf.bytes.length off).run o) := by
  obtain ⟨n, r, hway⟩ := exists_way buf off
  have hputs := h.puts _ hc
  cases hway with
  | stops hs hf hw =>
    rw [hs.stores, replyOf_stores] at hputs
    rw [hw, run_bind]
    refine (minds_storeEach hputs ?_).bind fun _ => .ret _
    rcases hf with hf | rfl
    · have hfails := h.fails _ hc hf
      rwa [hs.stores, replyOf_stores] at hfails
    · exact fun _ hm => nomatch hm
  | tests hs hw =>
    rw [hs.stores, replyOf_stores] at hputs
    have hlay : Yields (fun _ => ()) I (lay buf off n) o fun _ _ => True :=
      yields_lay (fun w hm d hd => ⟨rfl, hputs w hm d hd⟩) fun _ _ => trivial
    rw [hw, run_bind]
    exact hlay.minds (fun _ _ => mends_test h r) fun _ _ => minds_test h r

end Abides

/-! ## The other calls -/

section Others

variable {I F : Dev Vars → Prop} {o : Out}

/-- Code that changes nothing breaks nothing. -/
theorem unbroken {α : Type} {x : Access Vars α} (hx : Yields id I x o fun _ _ => True) :
    Minds I F (x.run o) :=
  Free.unbroken hx fun s s' (hs : s' = s) hF => hs ▸ hF

theorem minds_code {P : Fop → Prop} (h : Abides I F P) (c : Fop) (hc : P c) :
    Minds I F (fops.code c) := by
  cases c with
  | opn => exact (unbroken (yields_open fun _ _ => trivial)).bind fun _ => .ret _
  | release => exact (unbroken (yields_close fun _ _ => trivial)).bind fun _ => .ret _
  | read buf len off =>
    have hr : Yields id I (pokeRead buf len off) {} fun _ _ => True :=
      yields_read buf len off (fun _ _ _ => trivial) (fun _ _ _ _ _ _ _ _ => trivial)
        fun _ _ _ _ _ _ _ _ => trivial
    exact (unbroken hr).bind fun _ => .ret _
  | write buf off => exact (minds_write h hc).bind fun _ => .ret _

end Others

theorem abides_any : Abides (fun _ => True) (fun _ => True) fun _ => True where
  puts _ _ _ _ _ _ := trivial
  fails _ _ _ _ _ _ _ _ := trivial
  broken _ _ hn := absurd trivial hn
  on _ _ _ _ _ := ⟨trivial, trivial⟩
  off _ _ _ _ _ := ⟨trivial, id⟩

/-- No call takes a mutex. -/
theorem free_code (c : Fop) : Free (fun _ => ()) (fun _ => True) (fun _ => True) (fops.code c) :=
  (minds_code abides_any c trivial).free

/-! ## Clients that write no directive, or one of them -/

theorem first_store (d : Dev Vars) (w : Store) :
    (d.writeBuffer.store w).get 0 = if w.1 = 0 then w.2 else d.writeBuffer.get 0 := by
  rw [Buf.get_store]
  exact if_congr eq_comm rfl rfl

/-- Without a `'1'`, the mode is never on. -/
theorem abides_off {P : Fop → Prop} (h : ∀ c, P c → ¬ Puts '1'.toUInt8 c) :
    Abides (fun d => d.writeBuffer.get 0 ≠ '1'.toUInt8 ∧ d.vars.stream = 0) (fun _ => True) P where
  puts c hc w hw d hd := by
    refine ⟨?_, hd.2⟩
    rw [first_store]
    split
    · rename_i h0
      rintro h1
      exact h c hc (by rwa [Puts, ← h0, ← h1])
    · exact hd.1
  fails _ _ _ _ _ _ _ _ := trivial
  broken _ _ hn := absurd trivial hn
  on _ _ hd h1 _ := absurd h1 hd.1
  off _ _ _ _ hd' := ⟨⟨hd'.1, rfl⟩, id⟩

/-- Without a `'0'`, and with each `'1'` obeyed by the write it is from. -/
theorem abides_on {P : Fop → Prop} (h : ∀ c, P c → ¬ Puts '0'.toUInt8 c)
    (hf : ∀ c, P c → Puts '1'.toUInt8 c → ¬ Fails c) :
    Abides (fun d => d.writeBuffer.get 0 ≠ '0'.toUInt8)
      (fun d => d.writeBuffer.get 0 = '1'.toUInt8 → d.vars.stream = 1) P where
  puts c hc w hw d hd := by
    rw [first_store]
    split
    · rename_i h0
      rintro h1
      exact h c hc (by rwa [Puts, ← h0, ← h1])
    · exact hd
  fails c hc hfc w hw d hd hF h1 := by
    rw [first_store] at h1
    split at h1
    · rename_i h0
      exact absurd hfc (hf c hc (by rwa [Puts, ← h0, ← h1]))
    · exact hF h1
  broken _ _ hn := (Classical.not_imp.mp hn).1
  on _ _ _ _ hd' := ⟨hd', fun _ => rfl⟩
  off _ _ hd h0 _ := absurd h0 hd

section Run

variable (es : List (Sched Fop))

/-- The threads after the turns `es`. -/
abbrev threads : Threads (Dev Vars) Fop Reply := Run.after (Threads.move fops.code) boot es

end Run

section Clients

variable {P : Fop → Prop} {es : List (Sched Fop)} (he : ∀ e ∈ es, e.Starts P)
  (hi : ∀ k, (threads es).todo k = none)

include he hi

theorem agrees_off (h : ∀ c, P c → ¬ Puts '1'.toUInt8 c) : Agrees (threads es).shared := by
  have hI := (mended_of_idle (s := boot) (minds_code (abides_off h)) (fun _ => rfl)
    ⟨by decide, rfl⟩ trivial he hi).1
  intro m hm
  rw [hI.2]
  rw [asks, if_neg hI.1] at hm
  split at hm <;> [exact Option.some.inj hm; cases hm]

theorem agrees_on (h : ∀ c, P c → ¬ Puts '0'.toUInt8 c)
    (hf : ∀ c, P c → Puts '1'.toUInt8 c → ¬ Fails c) : Agrees (threads es).shared := by
  obtain ⟨hI, hF⟩ := mended_of_idle (s := boot) (minds_code (abides_on h hf)) (fun _ => rfl)
    (by decide) (by decide) he hi
  intro m hm
  rw [asks] at hm
  split at hm
  · rename_i h1
    rw [hF h1]
    exact Option.some.inj hm
  · cases hm

end Clients

/-! ## Clients that write both, or leave a `'1'` -/

section Alone

variable {v : UInt8} {buf : UserSrc} {off : Int} {n : Nat} {r : Int × Int} {o : Out}

/-- Only writes store. -/
theorem puts_write {c : Fop} (h : Puts v c) : ∃ buf off, c = .write buf off := by
  cases c with
  | write buf off => exact ⟨buf, off, rfl⟩
  | opn =>
    simp only [Puts, Driver.alone, Driver.enter, driver, Proof.Pokemon.pokeOpen_run] at h
    cases h
  | release =>
    simp only [Puts, Driver.alone, Driver.enter, driver, Proof.Pokemon.pokeClose_run] at h
    cases h
  | read buf len off =>
    have hs := Proof.Pokemon.pokeRead_stores Impl.Pokemon.init buf len off
    have h' : (0, v) ∈ ((Impl.Pokemon.pokeRead buf len off).run { dev := Impl.Pokemon.init }).2.out.stores := h
    rw [hs] at h'
    cases h'

/-- The byte a copy puts at the start of the array. -/
theorem first_copied (b : Buf BUFFER_SIZE) (h : (0, v) ∈ Buf.copyTo off n (buf.image n)) :
    0 < n ∧ (b.stores (Buf.copyTo off n (buf.image n))).get 0 = v := by
  obtain ⟨i, hi, himg, h0⟩ := Buf.mem_copyTo.mp h
  have hz : (((0 : Fin BUFFER_SIZE) : Nat) : Int) = 0 := rfl
  have hk : ((((0 : Fin BUFFER_SIZE) : Nat) : Int) - off).toNat = i := by omega
  refine ⟨by omega, ?_⟩
  rw [Buf.get_stores_copyTo, if_pos (by omega), hk, himg, Option.getD_some]

/-- A write leaves the byte it puts at the start of the array. -/
theorem first_put (b : Buf BUFFER_SIZE) (h : Puts v (.write buf off)) :
    (b.stores (driver.alone (.write buf off)).out.stores).get 0 = v := by
  obtain ⟨n, r, hway⟩ := exists_way buf off
  cases hway with
  | stops hs _ _ =>
    rw [Puts, hs.stores] at h
    rw [hs.stores]
    exact (first_copied b h).2
  | tests hs _ =>
    rw [Puts, hs.stores, replyOf_stores, List.mem_append] at h
    rw [hs.stores, replyOf_stores, Buf.stores_append, Buf.stores_cons, Buf.stores_nil, Buf.get_store]
    have hz : (((0 : Fin BUFFER_SIZE) : Nat) : Int) = 0 := rfl
    rcases h with h | h
    · obtain ⟨hn, hv⟩ := first_copied b h
      rw [if_neg (by rw [hz]; omega), hv]
    · obtain ⟨h0, rfl⟩ := Prod.mk.inj (List.mem_singleton.mp h)
      rw [if_pos (by rw [hz, h0])]

variable (d : Dev Vars)

theorem exec_lay : (((lay buf off n).run o).exec d).2 = { d with
    writeBuffer := d.writeBuffer.stores (Buf.copyTo off n (buf.image n) ++ [((n : Int), 0)]) } := by
  simp only [lay, exec_bind, exec_storeEach, exec_storeByte, exec_loadStr, exec_printk,
    Buf.stores_append, Buf.stores_cons, Buf.stores_nil]

theorem exec_heed_on : (((heed r '1'.toUInt8).run o).exec d).2 =
    { d with vars := { d.vars with stream := 1 } } := by
  simp only [heed, if_true, exec_bind, exec_store, exec_printk, exec_pure]

theorem exec_heed (b : UInt8) : (((heed r b).run o).exec d).2.writeBuffer = d.writeBuffer := by
  simp only [heed, exec_bind, exec_ite, exec_load]
  split
  · rfl
  · split <;> rfl

/-- A write stores what it stores alone. -/
theorem exec_write : ((fops.code (.write buf off)).exec d).2.writeBuffer =
    d.writeBuffer.stores (driver.alone (.write buf off)).out.stores := by
  obtain ⟨n, r, hway⟩ := exists_way buf off
  rw [code_write, Thread.exec_bind, Thread.exec_ret]
  cases hway with
  | stops hs _ hw => rw [hw, hs.stores, replyOf_stores, exec_bind, exec_storeEach, exec_pure]
  | tests hs hw =>
    rw [hw, hs.stores, replyOf_stores, exec_bind, exec_bind, exec_load, exec_heed, exec_lay]

/-- A write that fails obeys nothing. -/
theorem exec_fails (hp : (Fop.write buf off).Passed) (hf : Fails (.write buf off)) :
    ((fops.code (.write buf off)).exec d).2.vars = d.vars := by
  rw [exec_code]
  by_cases h : off ≥ BUFFER_SIZE
  · simp only [Driver.enter, driver, Proof.Pokemon.pokeWrite_far _ buf _ off h]
  · have hn := clamp_eq hp.2 h hp.1
    by_cases hm : min buf.missed (min buf.bytes.length (BUFFER_SIZE - off.toNat)) = 0
    · simp only [Fails, Driver.alone, Driver.enter, driver,
        Proof.Pokemon.pokeWrite_ok _ buf _ off h hn hm rfl] at hf
      rw [Reply.ofPair, int32_count (by omega)] at hf
      exact absurd hf (not_lt.mpr (Int.natCast_nonneg _))
    · simp only [Driver.enter, driver, Proof.Pokemon.pokeWrite_fault _ buf _ off h hn hm]

end Alone

/-- What a write that has loaded the byte has left. -/
def rest (r : Int × Int) (x : UInt8 × Out) : Thread (Dev Vars) Reply :=
  ((heed r x.1).run x.2).bind fun r => .ret (.ofPair r)

theorem free_rest (r : Int × Int) (x : UInt8 × Out) :
    Free (fun _ => ()) (fun _ => True) (fun _ => True) (rest r x) := by
  have h : Minds (fun _ => True) (fun _ => True) ((heed r x.1).run x.2) :=
    minds_heed abides_any r (d := { Impl.Pokemon.init with writeBuffer := ⟨fun _ => x.1⟩ }) trivial
  exact (h.bind fun _ => .ret _).free

section Races

variable {P : Fop → Prop} {c : Fop} (hP : P c) (h1 : Puts '1'.toUInt8 c)

include hP h1

/-- A `'1'` left by a copy that fails. -/
theorem left_on (hp : c.Passed) (hf : Fails c) :
    ∃ t, Threads.Reaches fops.code P boot t ∧ (∀ k, t.todo k = none) ∧ ¬ Agrees t.shared := by
  obtain ⟨buf, off, rfl⟩ := puts_write h1
  obtain ⟨t, hr, ht, hs⟩ := Threads.reaches_call fops.code (s := boot) (k := 0) trivial
    (free_code (.write buf off)) rfl hP
  refine ⟨t, hr, fun k => congrFun ht k, fun ha => ?_⟩
  have hm := ha 1 (by rw [hs, exec_write, first_put _ h1]; decide)
  rw [hs, exec_fails _ hp hf] at hm
  exact absurd hm (by decide)

/-- A write that has stored and loaded a `'1'`, and is to obey it yet. -/
theorem loaded (hf : ¬ Fails c) : ∃ t r x, x.1 = '1'.toUInt8 ∧ Threads.Reaches fops.code P boot t ∧
    t.todo = Function.update boot.todo 0 (some (c, rest r x)) := by
  obtain ⟨buf, off, rfl⟩ := puts_write h1
  obtain ⟨n, r, hway⟩ := exists_way buf off
  cases hway with
  | stops hs hn _ =>
    rcases hn with hn | rfl
    · exact absurd hn hf
    · rw [Puts, hs.stores] at h1
      cases h1
  | tests hs hw =>
    have hlay : Yields (fun _ => ()) (fun _ => True)
        (lay buf off n >>= fun _ => load (·.writeBuffer.get 0)) {} fun _ _ => True :=
      .bind (yields_lay (fun _ _ _ _ => ⟨rfl, trivial⟩) fun _ _ => yields_load fun _ _ => trivial)
    have hcode : fops.code (.write buf off) =
        ((lay buf off n >>= fun _ => load (·.writeBuffer.get 0)).run {}).bind (rest r) := by
      rw [code_write, hw, ← bind_assoc, run_bind, Thread.bind_assoc]
      rfl
    obtain ⟨t, hr, ht, -⟩ := Threads.reaches_bind fops.code (P := P)
      (s := boot.goOn 0 (.write buf off) (fops.code (.write buf off))) trivial hlay
      ((Threads.goOn_todo ..).trans (by rw [hcode]))
    refine ⟨t, r, _, ?_, (Threads.reaches_start rfl hP).trans hr, ht.trans (Function.update_idem ..)⟩
    have hput := first_put Impl.Pokemon.init.writeBuffer h1
    rw [hs.stores, replyOf_stores] at hput
    rw [exec_bind, exec_load, exec_lay]
    exact hput

/-- A `'1'` that has been loaded is obeyed once a `'0'` has run from its start to its end. -/
theorem raced (hf : ¬ Fails c) {c' : Fop} (hP' : P c') (h0 : Puts '0'.toUInt8 c') :
    ∃ t, Threads.Reaches fops.code P boot t ∧ (∀ k, t.todo k = none) ∧ ¬ Agrees t.shared := by
  obtain ⟨t, r, ⟨b, o⟩, rfl, hr, ht⟩ := loaded hP h1 hf
  obtain ⟨buf, off, rfl⟩ := puts_write h0
  have ht1 : t.todo 1 = none := by rw [ht]; rfl
  obtain ⟨u, hu, htu, hsu⟩ := Threads.reaches_call fops.code trivial (free_code (.write buf off)) ht1 hP'
  have hu0 : u.todo 0 = some (c, rest r ('1'.toUInt8, o)) := by rw [htu, ht, Function.update_self]
  obtain ⟨w, hw, htw, hsw⟩ := Threads.reaches_finish fops.code (P := P) trivial (free_rest r _) hu0
  rw [rest, Thread.exec_bind, Thread.exec_ret, exec_heed_on] at hsw
  refine ⟨w, (hr.trans hu).trans hw, fun k => ?_, fun ha => ?_⟩
  · rw [htw, htu, ht, Function.update_idem]
    exact congrFun (Function.update_eq_self 0 boot.todo) k
  · have hm := ha 0 (by rw [hsw, hsu, exec_write, first_put _ h0]; decide)
    rw [hsw] at hm
    exact absurd hm (by decide : ¬ (1 : Int) = 0)

end Races

/-- Whatever calls clients make, in any order of their accesses: once all are over the mode is
the one the first byte of `write_buffer` asks for, exactly if no call that fails puts a `'1'`
there, and not both a `'1'` and a `'0'` are put there. -/
theorem agrees_iff (P : Fop → Prop) (hP : ∀ c, P c → c.Passed) :
    (∀ es, (∀ e ∈ es, e.Starts P) → (∀ k, (threads es).todo k = none) → Agrees (threads es).shared) ↔
      (∀ c, P c → Puts '1'.toUInt8 c → ¬ Fails c) ∧
        ((∀ c, P c → ¬ Puts '1'.toUInt8 c) ∨ ∀ c, P c → ¬ Puts '0'.toUInt8 c) := by
  constructor
  · intro h
    have hn : ¬ ∃ t, Threads.Reaches fops.code P boot t ∧ (∀ k, t.todo k = none) ∧
        ¬ Agrees t.shared := by
      rintro ⟨t, ⟨es, he, rfl⟩, hi, ha⟩
      exact ha (h es he hi)
    have hf : ∀ c, P c → Puts '1'.toUInt8 c → ¬ Fails c := fun c hc h1 hf =>
      hn (left_on hc h1 (hP c hc) hf)
    refine ⟨hf, or_iff_not_imp_left.mpr fun h1 c' hc' h0 => ?_⟩
    obtain ⟨c, h1⟩ := not_forall.mp h1
    obtain ⟨hc, h1⟩ := Classical.not_imp.mp h1
    rw [not_not] at h1
    exact hn (raced hc h1 (hf c hc h1) hc' h0)
  · rintro ⟨hf, h1 | h0⟩ es he hi
    · exact agrees_off he hi h1
    · exact agrees_on he hi h0 hf

/-- Clients that write one byte each do not keep to it. -/
theorem agrees_iff_byte : ¬ ∀ es, (∀ e ∈ es, e.Starts fun c => ∃ b, c = .write ⟨[b], 0, []⟩ 0) →
    (∀ k, (threads es).todo k = none) → Agrees (threads es).shared := by
  intro h
  have hP : ∀ c : Fop, (∃ b, c = .write ⟨[b], 0, []⟩ 0) → c.Passed := by
    rintro _ ⟨b, rfl⟩
    exact ⟨by show 1 ≤ MAX_RW_COUNT; decide, le_rfl⟩
  have hputs : ∀ b, Puts b (.write ⟨[b], 0, []⟩ 0) := by
    intro b
    have hn : (if sizeT ((1 : Nat) + 0) > BUFFER_SIZE then sizeT (BUFFER_SIZE - 0) else 1) = 1 := rfl
    simp only [Puts, Driver.alone, Driver.enter, driver,
      Proof.Pokemon.pokeWrite_ok _ ⟨[b], 0, []⟩ 1 0 (by decide) hn rfl rfl, List.length_singleton]
    exact List.mem_append_left _ (Buf.mem_copyTo.mpr ⟨0, Nat.one_pos, rfl, rfl⟩)
  rcases ((agrees_iff _ hP).mp h).2 with h1 | h0
  · exact h1 _ ⟨_, rfl⟩ (hputs _)
  · exact h0 _ ⟨_, rfl⟩ (hputs _)

end SO.Access.Pokemon
