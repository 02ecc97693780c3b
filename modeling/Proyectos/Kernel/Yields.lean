import Proyectos.Kernel.Access

/-!
# Code of a driver that other calls run beside

`Yields` says what code that takes no mutex comes to whatever runs beside it, in
states with an invariant `I`: it keeps `I`, leaves a `view` of the device alone,
and `Q` holds of the value it returns and what its call has left behind. There is
one rule for each of the primitives of `Proyectos.Kernel.Access`; that of `loadStr`
is about a string that may change while it is read (`Found`).
-/

namespace SO.Access

open Thread (Free)

variable {σ α β π : Type}

section

variable (view : Dev σ → π) (I : Dev σ → Prop)

/-- Code that leaves the view alone and keeps `I`; `Q` holds of what it comes to. -/
def Yields (x : Access σ α) (o : Out) (Q : α → Out → Prop) : Prop :=
  Free view I (fun r => Q r.1 r.2) (x.run o)

/-- A change of the device that leaves the view alone and keeps `I`. -/
def Steady (f : Dev σ → Dev σ) : Prop := ∀ d, I d → view (f d) = view d ∧ I (f d)

end

/-- Lines of which every `%s` finds its terminator. -/
def Plain (ls : List Line) : Prop := ∀ l ∈ ls, l.Terminated

theorem plain_nil : Plain [] := fun _ hl => nomatch hl

theorem plain_line {l : Line} (h : l.Terminated) : Plain [l] := List.forall_mem_singleton.mpr h

variable {view : Dev σ → π} {I : Dev σ → Prop} {o : Out}

theorem Yields.mono {x : Access σ α} {Q R : α → Out → Prop} (h : Yields view I x o Q)
    (hq : ∀ a o', Q a o' → R a o') : Yields view I x o R := Free.mono h fun r => hq r.1 r.2

theorem Yields.bind {x : Access σ α} {f : α → Access σ β} {Q : β → Out → Prop}
    (h : Yields view I x o fun a o' => Yields view I (f a) o' Q) : Yields view I (x >>= f) o Q :=
  Free.bind h fun _ hr => hr

theorem yields_pure {Q : α → Out → Prop} {a : α} (h : Q a o) : Yields view I (pure a) o Q := .ret h

theorem yields_load {Q : α → Out → Prop} {g : Dev σ → α} (h : ∀ d, I d → Q (g d) o) :
    Yields view I (load g) o Q :=
  .act (fun _ hd => ⟨rfl, hd⟩) fun d hd => .ret (h d hd)

theorem yields_store {Q : Unit → Out → Prop} {f : σ → σ}
    (hf : Steady view I fun d => { d with vars := f d.vars }) (h : Q () o) :
    Yields view I (store f) o Q :=
  .act hf fun _ _ => .ret h

theorem yields_printk {Q : Unit → Out → Prop} {level : Level} {fmt : String} {args : List Arg}
    (h : Q () { o with log := o.log ++ [⟨level, fmt, args⟩] }) :
    Yields view I (printk level fmt args) o Q := .ret h

theorem yields_storeByte {Q : Unit → Out → Prop} {i : Int} {v : UInt8}
    (hw : Steady view I fun d => { d with writeBuffer := d.writeBuffer.store (i, v) })
    (h : Q () { o with stores := o.stores ++ [(i, v)] }) : Yields view I (storeByte i v) o Q :=
  .act hw fun _ _ => .ret h

theorem yields_storeEach {Q : Unit → Out → Prop} {ws : List Store}
    (hw : ∀ w ∈ ws, Steady view I fun d => { d with writeBuffer := d.writeBuffer.store w })
    (h : Q () { o with stores := o.stores ++ ws }) : Yields view I (storeEach ws) o Q := by
  induction ws generalizing o with
  | nil =>
    rw [List.append_nil] at h
    exact yields_pure h
  | cons w ws ih =>
    refine .bind (yields_storeByte (hw w List.mem_cons_self) ?_)
    refine ih (fun v hv => hw v (List.mem_cons_of_mem _ hv)) ?_
    rwa [List.append_assoc]

/-- What `%s` may find at `js`, in an array that others store into. -/
def Found (I : Dev σ → Prop) (js : List (Fin BUFFER_SIZE)) : Option (List UInt8) → Prop
  | none => ∀ j ∈ js, ∃ d, I d ∧ d.writeBuffer.get j ≠ 0
  | some _ => ∃ j ∈ js, ∃ d, I d ∧ d.writeBuffer.get j = 0

theorem yields_loadStr {Q : Option (List UInt8) → Out → Prop} {js : List (Fin BUFFER_SIZE)}
    (h : ∀ str, Found I js str → Q str o) : Yields view I (loadStr js) o Q := by
  induction js generalizing Q with
  | nil => exact yields_pure (h none nofun)
  | cons j js ih =>
    refine .bind (yields_load fun d hd => ?_)
    split
    · rename_i h0
      exact yields_pure (h (some []) ⟨j, List.mem_cons_self, d, hd, h0⟩)
    · rename_i h0
      refine .bind (ih fun str hstr => yields_pure (h _ ?_))
      cases str with
      | none => exact List.forall_mem_cons.mpr ⟨⟨d, hd, h0⟩, hstr⟩
      | some l =>
        obtain ⟨i, hi, hz⟩ := hstr
        exact ⟨i, List.mem_cons_of_mem _ hi, hz⟩

theorem yields_copyToUser {Q : Nat → Out → Prop} {buf : UserDst} {n : Nat}
    (h : ∀ d, I d → Q (min buf.missed n)
      { o with user := o.user ++ d.kernelBuffer.bytes.take (n - min buf.missed n) }) :
    Yields view I (copyToUser buf n) o Q :=
  .act (fun _ hd => ⟨rfl, hd⟩) fun d hd => .ret (h d hd)

theorem yields_copyFromUser {Q : Nat → Out → Prop} {off : Int} {src : UserSrc} {n : Nat}
    (hw : ∀ w ∈ Buf.copyTo off n (src.image n),
      Steady view I fun d => { d with writeBuffer := d.writeBuffer.store w })
    (h : Q (min src.missed n) { o with stores := o.stores ++ Buf.copyTo off n (src.image n) }) :
    Yields view I (copyFromUser off src n) o Q :=
  .bind (yields_storeEach hw (yields_pure h))

end SO.Access
