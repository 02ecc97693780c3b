import Proyectos.Kernel.Strings
import Proyectos.Proof.Offsets
import Proyectos.Proof.Pokemon.Ways
import Proyectos.Proof.Toggle.Ways

/-!
# The strings logged, whatever runs beside

`luffy`, `madre`, `chaleco` and `pokemon` log `write_buffer` with `%s` while other
writes copy into it. The terminator that `poke_write` stores before that is not
enough: another write may store over it before it is found. When none of the four
logs past the end of the array, in any interleaving, is one condition on the calls
(`prints_safe_iff`).
-/

namespace SO.Access

open Thread (Free)

namespace Pokemon

open SO.Impl.Pokemon (Vars)

/-- `poke_write` stores a 0 between its copy and the string. -/
def printer : Printer fops where
  pre := pure ()
  mid n := storeByte n 0
  post n off str := do
    printk .kernInfo "Mensaje recibido desde usuario: %s\n" [.s str]
    let b ← load (·.writeBuffer.get 0)
    heed (int32 n, loffT (off + n)) b
  far {buf off} h := by
    show pokeWrite buf buf.bytes.length off = _
    rw [pokeWrite, if_pos h]
    rfl
  fault {buf off n} hp h hn hf := by
    have hc := (clamp_eq hp.2 h hp.1).trans hn.symm
    show pokeWrite buf buf.bytes.length off = _
    simp only [pokeWrite, if_neg h, hc, copyFromUser, bind_assoc, pure_bind, ne_eq, hf,
      not_false_eq_true, if_true]
  ok {buf off n} hp h hn hf := by
    have hc := (clamp_eq hp.2 h hp.1).trans hn.symm
    show pokeWrite buf buf.bytes.length off = _
    simp only [pokeWrite, if_neg h, hc, copyFromUser, bind_assoc, pure_bind, hf]
    rfl
  quiet_pre := yields_pure id
  quiet_mid hI := yields_storeByte (hI _) id
  logs_post {n off str o} := by
    refine .bind (yields_printk (.bind (yields_load fun d _ => ?_)))
    refine yields_heed (fun _ _ _ => ⟨rfl, trivial⟩) fun ls hls => ⟨_, List.append_assoc .., ?_⟩
    rw [Plain, List.forall_mem_append]
    exact (and_iff_left hls).trans plain_str
  quiet {c} hc := by
    cases c with
    | opn =>
      exact Free.bind (yields_open (Q := fun _ o => Plain o.log) fun ls h => h.append plain_nil)
        fun _ h => .ret h
    | release =>
      exact Free.bind (yields_close (Q := fun _ o => Plain o.log) fun ls h => h.append plain_nil)
        fun _ h => .ret h
    | read buf len off =>
      refine Free.bind (yields_read buf len off (Q := fun _ o => Plain o.log) (fun _ _ _ => plain_nil)
        (fun _ _ _ _ _ _ ls h => h.append plain_nil)
        fun _ _ _ _ _ _ ls h => h.append plain_nil) fun _ h => .ret h
    | write buf off => exact absurd rfl (hc buf off)

end Pokemon

namespace Toggle

open SO.Impl.Toggle (Texts Vars)

variable (x : Texts)

/-- The writes of the three store nothing after their copy. -/
def printer : Printer (fops x) where
  pre := do
    printk .kernInfo "Entrando a write\n"
    let s ← load (·.vars.stream)
    store fun v => { v with stream := if s = 0 then 1 else 0 }
  mid n := printk .kernInfo x.bytesReceived [.d (int32 n)]
  post n off str := do
    printk .kernInfo x.stringReceived [.s str]
    printk .kernInfo "Saliendo a write\n"
    return (int32 n, loffT (off + n))
  far {buf off} h := by
    show toggleWrite x buf buf.bytes.length off = _
    simp only [toggleWrite_eq, receive, if_pos h, bind_assoc]
  fault {buf off n} hp h hn hf := by
    have hc := (clamp_eq hp.2 h hp.1).trans hn.symm
    show toggleWrite x buf buf.bytes.length off = _
    simp only [toggleWrite_eq, receive, if_neg h, hc, copyFromUser, bind_assoc, pure_bind, ne_eq, hf,
      not_false_eq_true, if_true]
  ok {buf off n} hp h hn hf := by
    have hc := (clamp_eq hp.2 h hp.1).trans hn.symm
    show toggleWrite x buf buf.bytes.length off = _
    simp only [toggleWrite_eq, receive, if_neg h, hc, copyFromUser, bind_assoc, pure_bind, hf]
    rfl
  quiet_pre := .bind (yields_printk (.bind (yields_load fun _ _ =>
    yields_store (fun _ _ => ⟨rfl, trivial⟩) (plain_line (by decide)).append)))
  quiet_mid _ := yields_printk (plain_line (by simp [Line.Terminated])).append
  logs_post {n off str o} := by
    refine .bind (yields_printk (.bind (yields_printk (yields_pure ⟨_, List.append_assoc .., ?_⟩))))
    rw [Plain, List.forall_mem_append]
    exact (and_iff_left (plain_line (by decide))).trans plain_str
  quiet {c} hc := by
    cases c with
    | opn =>
      exact Free.bind (yields_open x (Q := fun _ o => Plain o.log) (fun _ _ _ => ⟨rfl, trivial⟩)
        fun ls h => h.append plain_nil) fun _ h => .ret h
    | release =>
      exact Free.bind (yields_close x (Q := fun _ o => Plain o.log)
        fun ls h => h.append plain_nil) fun _ h => .ret h
    | read buf len off =>
      refine Free.bind (yields_read x buf len off (Q := fun _ o => Plain o.log)
        (fun _ _ _ => ⟨rfl, trivial⟩) plain_nil (fun _ _ _ _ _ ls h => h.append plain_nil)
        fun _ _ _ _ _ ls h => h.append plain_nil) fun _ h => .ret h
    | write buf off => exact absurd rfl (hc buf off)

end Toggle

/-- The four drivers, whatever calls clients make, in any order of their accesses: no line
logged runs past the end of `write_buffer`, exactly if no call gets to its `%s`, or there
is a byte of the array that no call's copy puts there as anything but 0. -/
theorem prints_safe_iff (P : Fop → Prop) (hP : ∀ c, P c → c.Passed) :
    (∀ x, PrintsSafe (Toggle.fops x).code (Toggle.boot x) P ↔ (∀ c, P c → ¬ c.Prints) ∨
      ∃ i : Fin BUFFER_SIZE, ∀ c, P c → ∀ v, ((i : Int), v) ∈ c.copied → v = 0) ∧
    (PrintsSafe Pokemon.fops.code Pokemon.boot P ↔ (∀ c, P c → ¬ c.Prints) ∨
      ∃ i : Fin BUFFER_SIZE, ∀ c, P c → ∀ v, ((i : Int), v) ∈ c.copied → v = 0) :=
  ⟨fun x => (Toggle.printer x).printsSafe_iff (fun _ => rfl) (fun _ => rfl) hP,
    Pokemon.printer.printsSafe_iff (fun _ => rfl) (fun _ => rfl) hP⟩

/-- Clients that write one byte each, anywhere in the array. -/
theorem prints_safe_iff_byte : ¬ PrintsSafe Pokemon.fops.code Pokemon.boot fun c =>
    ∃ i : Fin BUFFER_SIZE, c = .write ⟨[0x41], 0, []⟩ i := by
  have hP : ∀ c : Fop, (∃ i : Fin BUFFER_SIZE, c = .write ⟨[0x41], 0, []⟩ i) → c.Passed := by
    rintro _ ⟨i, rfl⟩
    exact ⟨by show 1 ≤ MAX_RW_COUNT; decide, Int.natCast_nonneg _⟩
  intro h
  rcases ((prints_safe_iff _ hP).2.mp h) with hq | ⟨i, hi⟩
  · exact hq _ ⟨0, rfl⟩ ⟨by decide, .inl rfl⟩
  · have hlt := i.isLt
    have hoff : ¬ ((i : Nat) : Int) ≥ BUFFER_SIZE := by omega
    have hn : min 1 (BUFFER_SIZE - ((i : Nat) : Int).toNat) = 1 := by omega
    have hm : ((i : Int), (0x41 : UInt8)) ∈ (Fop.write ⟨[0x41], 0, []⟩ i).copied := by
      rw [Fop.copied, if_neg hoff]
      simp only [List.length_singleton, hn]
      exact Buf.mem_copyTo.mpr ⟨0, Nat.one_pos, rfl, by simp⟩
    exact absurd (hi _ ⟨i, rfl⟩ _ hm) (by decide)

end SO.Access
