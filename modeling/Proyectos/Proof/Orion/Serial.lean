import Proyectos.Proof.Orion.Threads

/-!
# `orion`: what `orion_mutex` guards
-/

namespace SO.Access.Orion

open SO.Impl.Orion (Vars driver)
open SO.Proof.Orion (obey logged)
open Thread (Does Closes Locks Free)

/-- What `orion_mutex` guards: all but `exit_flag`, which `orion_read` uses without it. -/
def guarded (d : Dev Vars) : Dev Vars :=
  { d with vars := { d.vars with exitFlag := 0, orionMutex := false } }

/-- A call run in one piece, on what the mutex guards. -/
def serial (x : Dev Vars) (c : Fop) : Dev Vars × Reply := (guarded (driver.enter x c).1, (driver.enter x c).2)

/-- What holds of every shared state: `J` of the variables, and `kernel_buffer` as it
was loaded. -/
def Shared (J : Vars → Prop) (d : Dev Vars) : Prop :=
  J d.vars ∧ d.kernelBuffer = .ofBytes Impl.Orion.message

/-! ## Inside the mutex -/

section Inside

variable {J : Vars → Prop} (x : Dev Vars) (o : Out)

theorem does_load {α : Type} {g : Dev Vars → α} (hg : ∀ d, g (guarded d) = g d) :
    Does guarded (Shared J) (g x, o) x x ((load g).run o) := by
  refine .act (fun s hs hx => ⟨hx, hs⟩) fun s hs hx => ?_
  rw [← hg s, hx]
  exact .ret

theorem does_store {f : Vars → Vars} (hJ : ∀ v, J v → J (f v))
    (hf : ∀ d, guarded { d with vars := f d.vars } = { guarded d with vars := f (guarded d).vars }) :
    Does guarded (Shared J) ((), o) { x with vars := f x.vars } x ((store f).run o) := by
  refine .act (fun s hs hx => ⟨?_, hJ _ hs.1, hs.2⟩) fun _ _ _ => .ret
  rw [hf, hx]

theorem does_storeByte (i : Int) (v : UInt8) :
    Does guarded (Shared J) ((), { o with stores := o.stores ++ [(i, v)] })
      { x with writeBuffer := x.writeBuffer.store (i, v) } x ((storeByte i v).run o) := by
  refine .act (fun s hs hx => ⟨?_, hs⟩) fun _ _ _ => .ret
  subst hx
  rfl

theorem does_storeEach (ws : List Store) :
    Does guarded (Shared J) ((), { o with stores := o.stores ++ ws })
      { x with writeBuffer := x.writeBuffer.stores ws } x ((storeEach ws).run o) := by
  induction ws generalizing x o with
  | nil =>
    rw [List.append_nil]
    exact .ret
  | cons w ws ih =>
    have h := ih { x with writeBuffer := x.writeBuffer.store w } { o with stores := o.stores ++ [w] }
    rw [List.append_assoc, List.singleton_append] at h
    exact (does_storeByte x o w.1 w.2).bind h

theorem does_copyFromUser (off : Int) (src : UserSrc) (n : Nat) :
    Does guarded (Shared J)
      (min src.missed n, { o with stores := o.stores ++ Buf.copyTo off n (src.image n) })
      { x with writeBuffer := x.writeBuffer.copied src n off } x ((copyFromUser off src n).run o) :=
  (does_storeEach x o _).bind .ret

theorem does_loadStr (js : List (Fin BUFFER_SIZE)) :
    Does guarded (Shared J) (strAt x.writeBuffer js, o) x x ((loadStr js).run o) := by
  induction js with
  | nil => exact .ret
  | cons j js ih =>
    refine (does_load x o fun _ => rfl).bind ?_
    rw [run_ite, strAt]
    split
    · exact .ret
    · exact ih.bind .ret

theorem does_printk (level : Level) (fmt : String) (args : List Arg) :
    Does guarded (Shared J) ((), { o with log := o.log ++ [⟨level, fmt, args⟩] }) x x
      ((printk level fmt args).run o) := .ret

theorem closes_unlock {q : Unit × Out → Thread (Dev Vars) Reply} {a : Reply} (h : q ((), o) = .ret a) :
    Closes guarded (Shared J) x ((mutexUnlock.run o).bind q) := by
  rw [run_mutexUnlock, Thread.unlock_bind, Thread.ret_bind, h]
  exact ⟨a, x, .unlock (.ret rfl)⟩

end Inside

/-! ## The calls that take it -/

section Calls

variable {J : Vars → Prop} (x : Dev Vars)

/-- Code that keeps to the mutex does what the function run in one piece does. -/
theorem locks_of_closes {c : Fop} (hJ : ∀ v, J v → J { v with exitFlag := 0, orionMutex := false })
    (h : ∃ p, fops.code c = .lock p ∧ ∀ x, Closes guarded (Shared J) x p) :
    Locks guarded (Shared J) (serial · c) (fops.code c) := by
  obtain ⟨p, hp, hc⟩ := h
  rw [hp]
  refine .lock fun s hs => ?_
  have he := exec_code (d := guarded s) rfl c
  rw [hp, Thread.exec_lock] at he
  have hh := Closes.holds (s := guarded s) (hc _) ⟨hJ _ hs.1, hs.2⟩
  rw [he] at hh
  exact hh

/-- `J` is kept by every access of the calls satisfying `P`, whatever the others do
between them, and allows the end of file only if `eof`. -/
structure Kept (J : Vars → Prop) (P : Fop → Prop) (eof : Prop) : Prop where
  quiet : ∀ v, J v → J { v with exitFlag := 0, orionMutex := false }
  count : ∀ v n, J v → J { v with deviceOpenCount := n }
  on : ∀ v, J v → J { v with stream := 1 }
  clear : ∀ v, J v → J { v with exitFlag := 0 }
  /-- A write whose own first byte asks for it clears `stream`. -/
  off : ∀ buf o, P (.write buf o) → min buf.missed (min buf.bytes.length (BUFFER_SIZE - 1)) = 0 →
    buf.bytes.getD 0 0 = '0'.toUInt8 → ∀ v, J v → J { v with stream := 0 }
  /-- A read that found `stream` clear sets `exit_flag`, in a state it has not seen. -/
  arm : ∀ v, J v → v.stream = 0 → ∀ v, J v → J { v with exitFlag := 1 }
  eof : ∀ v, J v → v.exitFlag ≠ 0 → eof

variable {P : Fop → Prop} {eof : Prop} (hJ : Kept J P eof)

include hJ

theorem locks_opn : Locks guarded (Shared J) (serial · .opn) (fops.code .opn) := by
  refine locks_of_closes hJ.quiet ?_
  simp only [Fops.code, fops, orionOpen, run_bind, run_mutexLock, Thread.lock_bind, Thread.ret_bind,
    Thread.bind_assoc]
  refine ⟨_, rfl, fun x => ?_⟩
  refine (does_load x _ fun _ => rfl).closes ?_
  refine (does_store x _ (hJ.count · _) fun _ => rfl).closes ?_
  refine (does_load _ _ fun _ => rfl).closes ?_
  refine (does_printk _ _ _ _ _).closes ?_
  exact closes_unlock _ _ rfl

theorem locks_release : Locks guarded (Shared J) (serial · .release) (fops.code .release) := by
  refine locks_of_closes hJ.quiet ?_
  simp only [Fops.code, fops, orionClose, run_bind, run_mutexLock, Thread.lock_bind, Thread.ret_bind,
    Thread.bind_assoc]
  refine ⟨_, rfl, fun x => ?_⟩
  refine (does_load x _ fun _ => rfl).closes ?_
  refine (does_store x _ (hJ.count · _) fun _ => rfl).closes ?_
  refine (does_load _ _ fun _ => rfl).closes ?_
  refine (does_printk _ _ _ _ _).closes ?_
  exact closes_unlock _ _ rfl

theorem locks_write {buf : UserSrc} {off : Int} (hP : P (.write buf off)) :
    Locks guarded (Shared J) (serial · (.write buf off)) (fops.code (.write buf off)) := by
  have h0 := hJ.off buf off hP
  refine locks_of_closes hJ.quiet ?_
  simp only [Fops.code, fops, orionWrite, run_bind, run_mutexLock, Thread.lock_bind, Thread.ret_bind,
    Thread.bind_assoc]
  refine ⟨_, rfl, fun x => ?_⟩
  generalize hn : min buf.bytes.length (BUFFER_SIZE - 1) = n at h0
  -- the first byte the write tests is its own: no other writer runs before it unlocks
  refine (does_copyFromUser x _ 0 buf n).closes ?_
  by_cases hf : min buf.missed n = 0
  · simp only [if_neg (not_not.mpr hf), run_bind, Thread.bind_assoc]
    have ht := Proof.Orion.tested_byte x.writeBuffer buf hn hf
    refine (does_storeByte _ _ _ _).closes ?_
    refine (does_load _ _ fun _ => rfl).closes ?_
    simp only [ht]
    by_cases h1 : buf.bytes.getD 0 0 = '1'.toUInt8
    · simp only [if_pos h1, run_bind, Thread.bind_assoc]
      refine (does_store _ _ hJ.on fun _ => rfl).closes ?_
      refine (does_store _ _ hJ.clear fun _ => rfl).closes ?_
      refine (does_printk _ _ _ _ _).closes ?_
      exact closes_unlock _ _ rfl
    · simp only [if_neg h1, run_bind, Thread.bind_assoc]
      refine (does_load _ _ fun _ => rfl).closes ?_
      simp only [ht]
      by_cases h0' : buf.bytes.getD 0 0 = '0'.toUInt8
      · simp only [if_pos h0', run_bind, Thread.bind_assoc]
        refine (does_store _ _ (h0 hf h0') fun _ => rfl).closes ?_
        refine (does_printk _ _ _ _ _).closes ?_
        exact closes_unlock _ _ rfl
      · simp only [if_neg h0', run_bind, Thread.bind_assoc]
        refine (does_loadStr _ _ _).closes ?_
        refine (does_printk _ _ _ _ _).closes ?_
        exact closes_unlock _ _ rfl
  · simp only [if_pos hf, run_bind, Thread.bind_assoc]
    exact closes_unlock _ _ rfl

end Calls

/-! ## Reads, which do not -/

section Reads

variable (buf : UserDst) (len : Nat) (off : Int)

/-- A read that is about to copy `n` bytes. -/
def copying (n : Nat) : Thread (Dev Vars) Reply :=
  ((copyToUser buf n).run {}).bind fun a =>
    ((if a.1 ≠ 0 then do
        printk .kernErr "orion: Fallo al copiar datos al espacio de usuario.\n"
        return (-EFAULT, off)
      else return ((n : Int), off) : Access Vars (Int × Int)).run a.2).bind fun r => .ret (.ofPair r)

/-- A read that is about to set `exit_flag`, and then to copy `n` bytes. -/
def arming (n : Nat) : Thread (Dev Vars) Reply :=
  .act (fun d => { d with vars := { d.vars with exitFlag := 1 } }) fun _ => copying buf off n

/-- A read that is about to test `stream`. -/
def testing (n : Nat) : Thread (Dev Vars) Reply :=
  .act id fun d => if d.vars.stream = 0 then arming buf off n else copying buf off n

/-- A read that is about to clear `exit_flag` and to reply the end of file. -/
def ending : Thread (Dev Vars) Reply :=
  .act (fun d => { d with vars := { d.vars with exitFlag := 0 } }) fun _ => .ret ⟨0, some off, {}⟩

theorem code_read : fops.code (.read buf len off) = .act id fun d₀ => .act id fun d =>
    if d.vars.exitFlag = 0 then testing buf off (min len d₀.kernelBuffer.strlen) else ending off := by
  simp only [Fops.code, fops, orionRead, run_bind, run_load, Thread.act_bind, Thread.ret_bind]
  refine congrArg (Thread.act id) (funext fun d₀ => congrArg (Thread.act id) (funext fun d => ?_))
  by_cases he : d.vars.exitFlag = 0
  · simp only [if_pos he, run_bind, run_load, Thread.act_bind, Thread.ret_bind]
    refine congrArg (Thread.act id) (funext fun d₁ => ?_)
    by_cases hs : d₁.vars.stream = 0
    · simp only [if_pos hs, run_bind, Thread.bind_assoc]
      rfl
    · simp only [if_neg hs, run_bind, Thread.bind_assoc]
      rfl
  · simp only [if_neg he]
    rfl

/-- What a read may reply: the end of file, only if `eof`; an error; or the message,
or its first `len` bytes. -/
inductive Served (eof : Prop) : Reply → Prop
  | eof (h : eof) : Served eof ⟨0, some off, {}⟩
  | fault {r : Reply} (hr : r.ret = -EFAULT) (ho : r.off = some off)
      (h : min buf.missed (min len Impl.Orion.message.length) ≠ 0) : Served eof r
  | ok {n : Nat} (hn : min len Impl.Orion.message.length = n) (h : min buf.missed n = 0) :
      Served eof ⟨n, some off, { user := Impl.Orion.message.take n }⟩

variable {J : Vars → Prop}

theorem free_copying {Q : Reply → Prop} {n : Nat}
    (h : ∀ d, Shared J d → Q ((copying buf off n).exec d).1) :
    Free guarded (Shared J) Q (copying buf off n) := by
  refine .act (fun _ hs => ⟨rfl, hs⟩) fun d hd => ?_
  have hq := h d hd
  simp only [copying, run_copyToUser, Thread.act_bind, Thread.exec_act, id, Thread.ret_bind] at hq ⊢
  split at hq
  · rename_i hf
    rw [if_pos hf]
    exact .ret hq
  · rename_i hf
    rw [if_neg hf]
    exact .ret hq

/-- The copy, and what is returned of it. -/
theorem served_copying {eof : Prop} {n : Nat} (hn : min len Impl.Orion.message.length = n)
    {d : Dev Vars} (hd : Shared J d) : Served buf len off eof ((copying buf off n).exec d).1 := by
  simp only [copying, run_copyToUser, Thread.act_bind, Thread.exec_act, id, Thread.ret_bind]
  by_cases hf : min buf.missed n = 0
  · have hle : n ≤ Impl.Orion.message.length := by omega
    simp only [hf, ne_eq, not_true_eq_false, if_false, run_pure, Thread.ret_bind, Nat.sub_zero,
      List.nil_append, hd.2, Buf.take_bytes_ofBytes (n := BUFFER_SIZE) (by decide) hle]
    exact .ok hn hf
  · simp only [hf, ne_eq, not_false_eq_true, if_true, run_bind, run_printk, run_pure, Thread.ret_bind]
    exact .fault rfl rfl (hn ▸ hf)

/-- A read uses `exit_flag` and `stream` without the mutex, and changes `exit_flag` only. -/
theorem free_read {P : Fop → Prop} {eof : Prop} (hJ : Kept J P eof) :
    Free guarded (Shared J) (Served buf len off eof) (fops.code (.read buf len off)) := by
  rw [code_read]
  refine .act (fun _ hs => ⟨rfl, hs⟩) fun d₀ hd₀ => .act (fun _ hs => ⟨rfl, hs⟩) fun d hd => ?_
  rw [Proof.Orion.strlen_message hd₀.2]
  have hcopy : Free guarded (Shared J) (Served buf len off eof)
      (copying buf off (min len Impl.Orion.message.length)) :=
    free_copying buf off fun d hd => served_copying buf len off rfl hd
  by_cases he : d.vars.exitFlag = 0
  · rw [if_pos he]
    refine .act (fun _ hs => ⟨rfl, hs⟩) fun d hd => ?_
    by_cases hs : d.vars.stream = 0
    · rw [if_pos hs]
      exact .act (fun _ h => ⟨rfl, hJ.arm _ hd.1 hs _ h.1, h.2⟩) fun _ _ => hcopy
    · rw [if_neg hs]
      exact hcopy
  · rw [if_neg he]
    exact .act (fun _ h => ⟨rfl, hJ.clear _ h.1, h.2⟩) fun _ _ => .ret (.eof (hJ.eof _ hd.1 he))

end Reads

/-- The calls that take `orion_mutex`. -/
def Guarded : Fop → Prop
  | .read _ _ _ => False
  | _ => True

/-- What a call that does not take it may reply. -/
def Allowed (eof : Prop) : Fop → Reply → Prop
  | .read buf len off => Served buf len off eof
  | _ => fun _ => True

/-- The calls of `orion`, in states in which `J` holds. -/
def discipline {J : Vars → Prop} {P : Fop → Prop} {eof : Prop} (hJ : Kept J P eof) :
    Discipline fops.code P (Dev Vars) where
  view := guarded
  I := Shared J
  G := Guarded
  ser := serial
  Q := Allowed eof
  free c hc hG := by
    cases c with
    | read buf len off => exact free_read buf len off hJ
    | _ => exact absurd trivial hG
  locks c hc hG := by
    cases c with
    | opn => exact locks_opn hJ
    | release => exact locks_release hJ
    | read buf len off => exact absurd hG id
    | write buf off => exact locks_write hJ hc

end SO.Access.Orion
