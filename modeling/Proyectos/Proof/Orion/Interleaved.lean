import Proyectos.Proof.Orion.Serial

/-!
# `orion`: any order of the accesses of any number of callers

The calls that take `orion_mutex` reply what the functions of
`Proyectos.Impl.Orion`, run one after another in the order in which the calls
take it, reply (`serializable`), and no order of accesses leaves a caller waiting
for ever (`no_deadlock`). So what a write replies and logs is decided by the
write alone (`write_alone`), and every open and close logs the number of
sessions, as an `int` (`counts_sessions`).
-/

namespace SO.Access.Orion

open SO.Impl.Orion (Vars driver)
open History (Took order Begun)

theorem kept_any : Kept (fun _ => True) (fun _ => True) True where
  quiet _ _ := trivial
  count _ _ _ := trivial
  on _ _ := trivial
  clear _ _ := trivial
  off _ _ _ _ _ _ _ := trivial
  arm _ _ _ _ _ := trivial
  eof _ _ _ := trivial

section Run

variable (es : List (Sched Fop))

/-- The threads after the turns `es`. -/
abbrev threads : Threads (Dev Vars) Fop Reply := Run.after (Threads.move fops.code) boot es

/-- The history of the turns `es`. -/
abbrev history : History (Dev Vars) Fop Reply := Run.steps (Threads.move fops.code) boot es

theorem serial_boot : (discipline kept_any).Serial Impl.Orion.init [] boot := by
  have hI : (discipline kept_any).I boot.shared := ⟨trivial, rfl⟩
  exact Discipline.serial_nil hI rfl fun k c p h => nomatch h

theorem starts_any : ∀ e ∈ es, e.Starts fun _ : Fop => True := fun e _ => e.starts_any

/-- In every interleaving, the calls that take the mutex reply what they reply when
they are run one after another in the order in which they take it; and while no call
holds it, what it guards is what that run leaves. -/
theorem serializable :
    (∀ l t r k c a, history es = l ++ t :: r → t.out = .returned k c a → Guarded c →
      Took serial Impl.Orion.init l k c a) ∧
    ((threads es).holder = none →
      guarded (threads es).shared = Run.after serial Impl.Orion.init (order (history es))) := by
  have he := starts_any es
  refine ⟨fun l t r k c a e ht hG => ?_, fun hn => ?_⟩
  · exact Discipline.replies_serial serial_boot he e ht hG
  · exact Discipline.view_serial serial_boot he hn

/-- After every interleaving, all callers can still finish. -/
theorem no_deadlock :
    ∃ ks : List Nat, ∀ k, (threads (es ++ ks.map .step)).todo k = none := by
  have h := Discipline.serial_after serial_boot (starts_any es)
  obtain ⟨ks, hks⟩ := h.exists_idle (B := es.map Sched.thread) fun k hk =>
    (Threads.busy_after hk).resolve_left fun hn => hn rfl
  refine ⟨ks, fun k => ?_⟩
  rw [threads, Run.after_append]
  exact hks k

end Run

/-- What a guarded call replies, at the turn at which it returns. -/
theorem took_of_returned {es : List (Sched Fop)} {e : Sched Fop} {k : Nat} {c : Fop} {a : Reply}
    (ht : (Threads.move fops.code (threads es) e).2 = .returned k c a) (hG : Guarded c) :
    Took serial Impl.Orion.init (history es) k c a := by
  have h := Discipline.serial_after serial_boot (starts_any es)
  rcases h.reply (Discipline.todo_of_returned ht) with h | h
  · exact h.2
  · exact absurd hG h.1

/-! ## Writes -/

/-- A write replies the same whatever the device held. -/
theorem serial_write_reply (x y : Dev Vars) (buf : UserSrc) (off : Int) :
    (serial x (.write buf off)).2 = (driver.enter y (.write buf off)).2 := by
  simp only [serial, Driver.enter, driver]
  generalize hn : min buf.bytes.length (BUFFER_SIZE - 1) = n
  by_cases hf : min buf.missed n = 0
  · rw [Proof.Orion.orionWrite_ok x buf _ off hn hf rfl, Proof.Orion.orionWrite_ok y buf _ off hn hf rfl]
    simp only [Proof.Orion.logged_copied x.writeBuffer y.writeBuffer hn hf]
  · rw [Proof.Orion.orionWrite_fault x buf _ off hn hf, Proof.Orion.orionWrite_fault y buf _ off hn hf]

/-- In every interleaving, a write returns, stores and logs what it does alone on a
device just loaded. -/
theorem write_alone (es : List (Sched Fop)) (e : Sched Fop) {k : Nat} {buf : UserSrc} {off : Int}
    {a : Reply} (ht : (Threads.move fops.code (threads es) e).2 = .returned k (.write buf off) a) :
    a = (driver.enter Impl.Orion.init (.write buf off)).2 := by
  obtain ⟨-, -, -, -, -, -, rfl⟩ := took_of_returned ht trivial
  exact serial_write_reply ..

/-- Two writers, the second waiting for the mutex, and a reader. -/
def contended : List (Sched Fop) :=
  [.start 0 (.write ⟨['1'.toUInt8], 0, []⟩ 0), .start 1 (.write ⟨['0'.toUInt8], 0, []⟩ 0),
    .start 2 (.read {} 64 0), .step 0, .step 0, .step 1, .step 2, .step 0] ++
    List.replicate 5 (.step 0) ++ [.step 2] ++ List.replicate 7 (.step 1)

theorem write_alone_contended :
    ∃ a, (Threads.move fops.code (threads contended) (.step 1)).2 =
        .returned 1 (.write ⟨['0'.toUInt8], 0, []⟩ 0) a ∧
      a = (driver.enter Impl.Orion.init (.write ⟨['0'.toUInt8], 0, []⟩ 0)).2 :=
  ⟨_, rfl, write_alone contended (.step 1) rfl⟩

/-! ## Opens and closes -/

/-- What a call adds to the number of sessions. -/
def opened : Fop → Int
  | .opn => 1
  | .release => -1
  | _ => 0

/-- The number of sessions after the calls `cs`. -/
def sessions (cs : List Fop) : Int := (cs.map opened).sum

theorem sessions_snoc (cs : List Fop) (c : Fop) : sessions (cs ++ [c]) = sessions cs + opened c := by
  simp [sessions]

/-- The line an open or a close logs of `n` sessions. -/
def countLine (n : Int) : Fop → List Line
  | .opn => [⟨.kernInfo, "orion: Dispositivo abierto. Sesiones activas: %d\n", [.d (int32 n)]⟩]
  | .release => [⟨.kernInfo, "orion: Conexión cerrada. Sesiones activas: %d\n", [.d (int32 n)]⟩]
  | _ => []

theorem serial_count {x : Dev Vars} {m : Int} (h : x.vars.deviceOpenCount = int32 m) (c : Fop) :
    (serial x c).1.vars.deviceOpenCount = int32 (m + opened c) := by
  cases c with
  | opn =>
    simp only [serial, Driver.enter, driver, Proof.Orion.orionOpen_run, guarded, opened]
    rw [h, int32, int32, Int.bmod_add_bmod]; rfl
  | release =>
    simp only [serial, Driver.enter, driver, Proof.Orion.orionClose_run, guarded, opened]
    rw [h, int32, int32, Int.bmod_sub_bmod]; rfl
  | read buf len off =>
    obtain ⟨e, he⟩ := Proof.Orion.orionRead_dev x buf len off
    simp only [serial, Driver.enter, driver, he, guarded, opened, Int.add_zero, h]
  | write buf off =>
    obtain ⟨s, e, b, -, -, he⟩ := Proof.Orion.orionWrite_dev x buf buf.bytes.length off
    simp only [serial, Driver.enter, driver, he, guarded, opened, Int.add_zero, h]

theorem serial_line {x : Dev Vars} {m : Int} (h : x.vars.deviceOpenCount = int32 m) {c : Fop}
    (hc : c = .opn ∨ c = .release) : (serial x c).2.out.log = countLine (m + opened c) c := by
  rcases hc with rfl | rfl
  · simp only [serial, Driver.enter, driver, Proof.Orion.orionOpen_run, Reply.ofInt, countLine, opened]
    rw [h, int32, int32, Int.bmod_add_bmod]; rfl
  · simp only [serial, Driver.enter, driver, Proof.Orion.orionClose_run, Reply.ofInt, countLine, opened]
    rw [h, int32, int32, Int.bmod_sub_bmod]; rfl

theorem count_after (cs : List Fop) :
    (Run.after serial Impl.Orion.init cs).vars.deviceOpenCount = int32 (sessions cs) := by
  induction cs using List.reverseRecOn with
  | nil => exact (by decide : (0 : Int) = int32 0)
  | append_singleton cs c ih => rw [Run.after_snoc, serial_count ih, sessions_snoc]

/-- In every interleaving, an open or a close logs, as an `int`, the number of sessions at
the point at which it took the mutex, itself included. -/
theorem counts_sessions (es : List (Sched Fop)) (e : Sched Fop) {k : Nat} {c : Fop} {a : Reply}
    (ht : (Threads.move fops.code (threads es) e).2 = .returned k c a)
    (hc : c = .opn ∨ c = .release) :
    ∃ l u r, history es = l ++ u :: r ∧ u.out = .locked k c ∧ ¬ Begun r k ∧
      a.out.log = countLine (sessions (order (l ++ [u]))) c := by
  have hG : Guarded c := by rcases hc with rfl | rfl <;> trivial
  obtain ⟨l, u, r, hl, hu, hb, rfl⟩ := took_of_returned ht hG
  refine ⟨l, u, r, hl, hu, hb, ?_⟩
  rw [History.order_snoc_locked hu, sessions_snoc]
  exact serial_line (count_after _) hc

/-- Two opens, the second waiting for the mutex. -/
def opening : List (Sched Fop) :=
  [.start 0 .opn, .start 1 .opn, .step 0, .step 1] ++ List.replicate 5 (.step 0) ++
    List.replicate 5 (.step 1)

theorem counts_sessions_opening : ∃ a,
    (Threads.move fops.code (threads opening) (.step 1)).2 = .returned 1 .opn a ∧
      ∃ l u r, history opening = l ++ u :: r ∧ u.out = .locked 1 .opn ∧ ¬ Begun r 1 ∧
        a.out.log = countLine (sessions (order (l ++ [u]))) .opn :=
  ⟨_, rfl, counts_sessions opening (.step 1) rfl (.inl rfl)⟩

end SO.Access.Orion
