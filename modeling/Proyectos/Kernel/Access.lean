import Proyectos.Framework.Threads
import Proyectos.Kernel.Vfs
import Mathlib.Data.List.FinRange

/-!
# A driver's code, access by access

`Proyectos.Kernel.Device` runs a driver's function in one piece. Here it is a
thread, in which the functions of other callers may run between any two of its
accesses to the driver's static variables: each variable, and each byte of
`write_buffer`, is an access of its own, and all threads see the accesses in one
order. `kernel_buffer`, which no driver stores into, is read in one access, and
what a call leaves behind, its `Out`, is its own.

A call is named by its `Fop`: `Fops.code` is the thread it is, `Driver.enter`
the call run in one piece.
-/

namespace SO

variable {σ α β : Type}

/-- Code of a thread, with the `Out` of the call so far. -/
structure Access (σ α : Type) where
  run : Out → Thread (Dev σ) (α × Out)

namespace Access

instance : Monad (Access σ) where
  pure a := ⟨fun o => .ret (a, o)⟩
  bind x f := ⟨fun o => (x.run o).bind fun r => (f r.1).run r.2⟩

/-- Reads one of the device's variables. -/
def load (g : Dev σ → α) : Access σ α := ⟨fun o => .act id fun d => .ret (g d, o)⟩

/-- Stores into one of them. -/
def store (f : σ → σ) : Access σ Unit :=
  ⟨fun o => .act (fun d => { d with vars := f d.vars }) fun _ => .ret ((), o)⟩

/-- `write_buffer[i] = v`. -/
def storeByte (i : Int) (v : UInt8) : Access σ Unit :=
  ⟨fun o => .act (fun d => { d with writeBuffer := d.writeBuffer.store (i, v) }) fun _ =>
    .ret ((), { o with stores := o.stores ++ [(i, v)] })⟩

/-- Stores into `write_buffer`, one after another. -/
def storeEach : List Store → Access σ Unit
  | [] => pure ()
  | w :: ws => do
    storeByte w.1 w.2
    storeEach ws

/-- The bytes `write_buffer` has at `js`, up to the first NUL, one after another:
`%s`, where `js` are all its indices. -/
def loadStr : List (Fin BUFFER_SIZE) → Access σ (Option (List UInt8))
  | [] => pure none
  | j :: js => do
    let v ← load (·.writeBuffer.get j)
    if v = 0 then
      return some []
    return (← loadStr js).map (v :: ·)

def printk (level : Level) (fmt : String) (args : List Arg := []) : Access σ Unit :=
  ⟨fun o => .ret ((), { o with log := o.log ++ [⟨level, fmt, args⟩] })⟩

/-- `copy_to_user(buf, kernel_buffer, n)`. -/
def copyToUser (buf : UserDst) (n : Nat) : Access σ Nat :=
  ⟨fun o => .act id fun d => .ret (min buf.missed n,
    { o with user := o.user ++ d.kernelBuffer.bytes.take (n - min buf.missed n) })⟩

/-- `copy_from_user(write_buffer + off, src, n)`. -/
def copyFromUser (off : Int) (src : UserSrc) (n : Nat) : Access σ Nat := do
  storeEach (Buf.copyTo off n (src.image n))
  return min src.missed n

def mutexLock : Access σ Unit := ⟨fun o => .lock (.ret ((), o))⟩

def mutexUnlock : Access σ Unit := ⟨fun o => .unlock (.ret ((), o))⟩

/-! ## Running it -/

variable (o : Out)

@[simp] theorem run_pure (a : α) : (pure a : Access σ α).run o = .ret (a, o) := (rfl)

@[simp] theorem run_bind (x : Access σ α) (f : α → Access σ β) :
    (x >>= f).run o = (x.run o).bind fun r => (f r.1).run r.2 := (rfl)

@[simp] theorem run_ite (p : Prop) {_ : Decidable p} (x y : Access σ α) :
    (if p then x else y).run o = if p then x.run o else y.run o := by
  split <;> rfl

@[simp] theorem run_load (g : Dev σ → α) : (load g).run o = .act id fun d => .ret (g d, o) := (rfl)

@[simp] theorem run_store (f : σ → σ) : (store f).run o =
    .act (fun d => { d with vars := f d.vars }) fun _ => .ret ((), o) := (rfl)

@[simp] theorem run_storeByte (i : Int) (v : UInt8) : (storeByte i v : Access σ Unit).run o =
    .act (fun d => { d with writeBuffer := d.writeBuffer.store (i, v) }) fun _ =>
      .ret ((), { o with stores := o.stores ++ [(i, v)] }) := (rfl)

@[simp] theorem run_printk (level : Level) (fmt : String) (args : List Arg) :
    (printk level fmt args : Access σ Unit).run o =
      .ret ((), { o with log := o.log ++ [⟨level, fmt, args⟩] }) := (rfl)

@[simp] theorem run_copyToUser (buf : UserDst) (n : Nat) : (copyToUser buf n : Access σ Nat).run o =
    .act id fun d => .ret (min buf.missed n,
      { o with user := o.user ++ d.kernelBuffer.bytes.take (n - min buf.missed n) }) := (rfl)

@[simp] theorem run_mutexLock : (mutexLock : Access σ Unit).run o = .lock (.ret ((), o)) := (rfl)

@[simp] theorem run_mutexUnlock : (mutexUnlock : Access σ Unit).run o = .unlock (.ret ((), o)) :=
  (rfl)

instance : LawfulMonad (Access σ) := LawfulMonad.mk' (Access σ)
  (fun x => congrArg mk (funext fun o => Thread.bind_ret (x.run o)))
  (fun _ _ => rfl)
  (fun x _ _ => congrArg mk (funext fun o => Thread.bind_assoc (x.run o) _ _))

theorem storeEach_append (ws ws' : List Store) :
    (storeEach (ws ++ ws') : Access σ Unit) = storeEach ws >>= fun _ => storeEach ws' := by
  induction ws with
  | nil => rfl
  | cons w ws ih => rw [List.cons_append, storeEach, storeEach, ih, bind_assoc]

/-! ### Alone -/

section Alone

variable (d : Dev σ)

theorem exec_pure (a : α) : ((pure a : Access σ α).run o).exec d = ((a, o), d) := (rfl)

theorem exec_bind (x : Access σ α) (f : α → Access σ β) : ((x >>= f).run o).exec d =
    ((f ((x.run o).exec d).1.1).run ((x.run o).exec d).1.2).exec ((x.run o).exec d).2 := by
  rw [run_bind, Thread.exec_bind]

theorem exec_ite (p : Prop) {_ : Decidable p} (x y : Access σ α) :
    ((if p then x else y).run o).exec d = if p then (x.run o).exec d else (y.run o).exec d := by
  split <;> rfl

theorem exec_load (g : Dev σ → α) : ((load g).run o).exec d = ((g d, o), d) := (rfl)

theorem exec_store (f : σ → σ) : ((store f).run o).exec d = (((), o), { d with vars := f d.vars }) :=
  (rfl)

theorem exec_storeByte (i : Int) (v : UInt8) : ((storeByte i v).run o).exec d =
    (((), { o with stores := o.stores ++ [(i, v)] }),
      { d with writeBuffer := d.writeBuffer.store (i, v) }) := (rfl)

theorem exec_printk (level : Level) (fmt : String) (args : List Arg) :
    ((printk level fmt args).run o).exec d =
      (((), { o with log := o.log ++ [⟨level, fmt, args⟩] }), d) := (rfl)

theorem exec_copyToUser (buf : UserDst) (n : Nat) : ((copyToUser buf n).run o).exec d =
    ((min buf.missed n,
      { o with user := o.user ++ d.kernelBuffer.bytes.take (n - min buf.missed n) }), d) := (rfl)

theorem exec_mutexLock : ((mutexLock : Access σ Unit).run o).exec d = (((), o), d) := (rfl)

theorem exec_mutexUnlock : ((mutexUnlock : Access σ Unit).run o).exec d = (((), o), d) := (rfl)

theorem exec_storeEach (ws : List Store) : ((storeEach ws).run o).exec d =
    (((), { o with stores := o.stores ++ ws }), { d with writeBuffer := d.writeBuffer.stores ws }) := by
  induction ws generalizing o d with
  | nil => simp [storeEach]
  | cons w ws ih => simp [storeEach, ih]

theorem exec_copyFromUser (off : Int) (src : UserSrc) (n : Nat) :
    ((copyFromUser off src n).run o).exec d =
      ((min src.missed n, { o with stores := o.stores ++ Buf.copyTo off n (src.image n) }),
        { d with writeBuffer := d.writeBuffer.copied src n off }) := by
  rw [copyFromUser, exec_bind, exec_storeEach, exec_pure, Buf.copied]

end Alone

/-- What `loadStr` finds in an array that nobody stores into. -/
def strAt (b : Buf BUFFER_SIZE) : List (Fin BUFFER_SIZE) → Option (List UInt8)
  | [] => none
  | j :: js => if b.get j = 0 then some [] else (strAt b js).map (b.get j :: ·)

theorem strAt_eq (b : Buf BUFFER_SIZE) (js : List (Fin BUFFER_SIZE)) : strAt b js =
    if 0 ∈ js.map b.get then some ((js.map b.get).takeWhile (· ≠ 0)) else none := by
  induction js with
  | nil => rfl
  | cons j js ih =>
    by_cases hj : b.get j = 0
    · simp [strAt, hj]
    · simp only [strAt, if_neg hj, ih]
      by_cases hm : 0 ∈ js.map b.get
      · simp [hj, hm]
      · simp [hm, Ne.symm hj]

theorem strAt_finRange (b : Buf BUFFER_SIZE) : strAt b (List.finRange BUFFER_SIZE) = b.cstr := by
  rw [strAt_eq, ← List.ofFn_eq_map]
  rfl

theorem exec_loadStr (js : List (Fin BUFFER_SIZE)) (d : Dev σ) : ((loadStr js).run o).exec d =
    ((strAt d.writeBuffer js, o), d) := by
  induction js generalizing o with
  | nil => rfl
  | cons j js ih =>
    simp only [loadStr, exec_bind, exec_load, exec_ite, exec_pure, ih, strAt]
    split <;> rfl

end Access

/-! ## Calls of a driver's functions -/

/-- A call of one of a driver's functions. -/
inductive Fop
  | opn
  | release
  | read (buf : UserDst) (len : Nat) (off : Int)
  | write (buf : UserSrc) (off : Int)

/-- A call as the VFS makes it. -/
def Fop.Passed : Fop → Prop
  | .read _ len off => len ≤ MAX_RW_COUNT ∧ 0 ≤ off
  | .write buf off => buf.bytes.length ≤ MAX_RW_COUNT ∧ 0 ≤ off
  | _ => True

/-- The value a call returns, its new `*offset`, if it has one, and what it leaves
behind. -/
structure Reply where
  ret : Int
  off : Option Int := none
  out : Out

/-- The same but for what is logged. -/
structure Reply.Alike (a b : Reply) : Prop where
  ret : a.ret = b.ret
  off : a.off = b.off
  stores : a.out.stores = b.out.stores
  user : a.out.user = b.out.user

theorem Reply.Alike.symm {a b : Reply} (h : a.Alike b) : b.Alike a :=
  ⟨h.ret.symm, h.off.symm, h.stores.symm, h.user.symm⟩

/-- A driver's functions, access by access. -/
structure Fops (σ : Type) where
  opn : Access σ Int
  release : Access σ Int
  read : UserDst → Nat → Int → Access σ (Int × Int)
  write : UserSrc → Nat → Int → Access σ (Int × Int)

/-- What `open` and `release` reply. -/
def Reply.ofInt (r : Int × Out) : Reply := { ret := r.1, out := r.2 }

/-- What `read` and `write` reply. -/
def Reply.ofPair (r : (Int × Int) × Out) : Reply := { ret := r.1.1, off := some r.1.2, out := r.2 }

/-- The thread a call is. -/
def Fops.code (f : Fops σ) : Fop → Thread (Dev σ) Reply
  | .opn => (f.opn.run {}).bind fun r => .ret (.ofInt r)
  | .release => (f.release.run {}).bind fun r => .ret (.ofInt r)
  | .read buf len off => ((f.read buf len off).run {}).bind fun r => .ret (.ofPair r)
  | .write buf off => ((f.write buf buf.bytes.length off).run {}).bind fun r => .ret (.ofPair r)

/-- A call, run in one piece. -/
def Driver.enter (f : Driver σ) (d : Dev σ) : Fop → Dev σ × Reply
  | .opn => let r := f.opn.run { dev := d }; (r.2.dev, .ofInt (r.1, r.2.out))
  | .release => let r := f.release.run { dev := d }; (r.2.dev, .ofInt (r.1, r.2.out))
  | .read buf len off => let r := (f.read buf len off).run { dev := d }; (r.2.dev, .ofPair (r.1, r.2.out))
  | .write buf off =>
    let r := (f.write buf buf.bytes.length off).run { dev := d }
    (r.2.dev, .ofPair (r.1, r.2.out))

/-- What a call replies on the device just loaded. -/
def Driver.alone (f : Driver σ) (c : Fop) : Reply := (f.enter f.init c).2

end SO
