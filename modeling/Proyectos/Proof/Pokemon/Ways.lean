import Proyectos.Kernel.Yields
import Proyectos.Proof.Pokemon.Threads

/-!
# `pokemon`: the ways through a call that others run beside

What a call comes to in states with an invariant `I`, whatever runs beside it. A
write stops after its copy, or it goes on to test the first byte of
`write_buffer` (`Way`); its stores are those it makes alone.
-/

namespace SO.Access.Pokemon

open SO.Impl.Pokemon (Vars driver)
open Thread (Free)

/-! ## The code of a write -/

section Write

variable (buf : UserSrc) (off : Int) (n : Nat) (r : Int × Int)

/-- What a write does before it tests the first byte of `write_buffer`. -/
def lay : Access Vars Unit := do
  storeEach (Buf.copyTo off n (buf.image n))
  storeByte n 0
  let str ← loadStr (List.finRange BUFFER_SIZE)
  printk .kernInfo "Mensaje recibido desde usuario: %s\n" [.s str]

/-- What it does once it has loaded that byte. -/
def heed (b : UInt8) : Access Vars (Int × Int) := do
  if b = '1'.toUInt8 then
    store fun v => { v with stream := 1 }
    printk .kernInfo "Modo flujo ACTIVADO\n"
  else if (← load (·.writeBuffer.get 0)) = '0'.toUInt8 then
    store fun v => { v with stream := 0 }
    printk .kernInfo "Modo flujo DESACTIVADO\n"
  return r

/-- The reply of a write that makes the stores `ws`, but for what it logs. -/
def replyOf (ws : List Store) : Reply := { ret := r.1, off := some r.2, out := { stores := ws } }

@[simp] theorem replyOf_stores (ws : List Store) : (replyOf r ws).out.stores = ws := rfl

/-- A write that stops after its copy, or that goes on to the test. -/
inductive Way : Prop
  | stops (hs : (driver.alone (.write buf off)).Alike (replyOf r (Buf.copyTo off n (buf.image n))))
      (hf : (driver.alone (.write buf off)).ret < 0 ∨ n = 0)
      (hw : pokeWrite buf buf.bytes.length off =
        storeEach (Buf.copyTo off n (buf.image n)) >>= fun _ => pure r)
  | tests (hs : (driver.alone (.write buf off)).Alike
        (replyOf r (Buf.copyTo off n (buf.image n) ++ [((n : Int), 0)])))
      (hw : pokeWrite buf buf.bytes.length off =
        lay buf off n >>= fun _ => load (·.writeBuffer.get 0) >>= heed r)

theorem exists_way : ∃ n r, Way buf off n r := by
  by_cases h : off ≥ BUFFER_SIZE
  · have ha : driver.alone (.write buf off) = replyOf (0, off) [] := by
      simp only [Driver.alone, Driver.enter, driver, Proof.Pokemon.pokeWrite_far _ buf _ off h]
      rfl
    refine ⟨0, (0, off), .stops ?_ (.inr rfl) ?_⟩
    · rw [ha]
      exact ⟨rfl, rfl, rfl, rfl⟩
    · rw [pokeWrite, if_pos h]
      rfl
  · generalize hn : (if sizeT (buf.bytes.length + off) > BUFFER_SIZE then sizeT (BUFFER_SIZE - off)
      else buf.bytes.length) = n
    by_cases hf : min buf.missed n = 0
    · refine ⟨n, (int32 n, loffT (off + n)), .tests ?_ ?_⟩
      · simp only [Driver.alone, Driver.enter, driver,
          Proof.Pokemon.pokeWrite_ok _ buf _ off h hn hf rfl]
        exact ⟨rfl, rfl, rfl, rfl⟩
      · simp only [pokeWrite, if_neg h, hn, copyFromUser, lay, bind_assoc, pure_bind, hf]
        rfl
    · have ha : driver.alone (.write buf off) =
          replyOf (-EFAULT, off) (Buf.copyTo off n (buf.image n)) := by
        simp only [Driver.alone, Driver.enter, driver,
          Proof.Pokemon.pokeWrite_fault _ buf _ off h hn hf]
        rfl
      refine ⟨n, (-EFAULT, off), .stops ?_ (.inl ?_) ?_⟩
      · rw [ha]
        exact ⟨rfl, rfl, rfl, rfl⟩
      · rw [ha]
        exact (by decide : (-EFAULT : Int) < 0)
      · simp only [pokeWrite, if_neg h, hn, copyFromUser, bind_assoc, pure_bind, ne_eq, hf,
          not_false_eq_true, if_true]

theorem code_write : fops.code (.write buf off) =
    ((pokeWrite buf buf.bytes.length off).run {}).bind fun r => .ret (.ofPair r) := rfl

end Write

/-! ## What each function comes to -/

section Yields

variable {π : Type} {view : Dev Vars → π} {I : Dev Vars → Prop} {o : Out}

/-- A read, by the `kernel_buffer` it finds at its `strlen` and at its copy. -/
theorem yields_read (buf : UserDst) (len : Nat) (off : Int) {Q : Int × Int → Out → Prop}
    (eof : ∀ d, I d → off ≥ d.kernelBuffer.strlen → Q (0, 0) o)
    (fault : ∀ d d', I d → I d' → ¬ off ≥ d.kernelBuffer.strlen →
      min buf.missed d.kernelBuffer.strlen ≠ 0 → ∀ ls, Plain ls → Q (-EFAULT, off) { o with
        log := o.log ++ ls
        user := o.user ++ d'.kernelBuffer.bytes.take
          (d.kernelBuffer.strlen - min buf.missed d.kernelBuffer.strlen) })
    (ok : ∀ d d', I d → I d' → ¬ off ≥ d.kernelBuffer.strlen →
      min buf.missed d.kernelBuffer.strlen = 0 → ∀ ls, Plain ls →
        Q (int32 d.kernelBuffer.strlen, loffT (off + d.kernelBuffer.strlen)) { o with
          log := o.log ++ ls
          user := o.user ++ d'.kernelBuffer.bytes.take
            (d.kernelBuffer.strlen - min buf.missed d.kernelBuffer.strlen) }) :
    Yields view I (pokeRead buf len off) o Q := by
  refine .bind (yields_load fun d hd => ?_)
  split
  · rename_i h
    exact yields_pure (eof d hd h)
  · rename_i h
    refine .bind (yields_copyToUser fun d' hd' => ?_)
    split
    · rename_i hf
      exact .bind (yields_printk (yields_pure (fault d d' hd hd' h hf _ (plain_line (by decide)))))
    · rename_i hf
      rw [not_not] at hf
      have hok := ok d d' hd hd' h hf
      refine .bind (yields_load fun _ _ => ?_)
      split
      · exact .bind (yields_printk (yields_pure (hok _ (plain_line (by decide)))))
      · have h := hok [] plain_nil
        rw [List.append_nil] at h
        exact yields_pure h

theorem yields_open {Q : Int → Out → Prop} (h : ∀ ls, Plain ls → Q 0 { o with log := o.log ++ ls }) :
    Yields view I pokeOpen o Q := .bind (yields_printk (yields_pure (h _ (plain_line (by decide)))))

theorem yields_close {Q : Int → Out → Prop} (h : ∀ ls, Plain ls → Q 0 { o with log := o.log ++ ls }) :
    Yields view I pokeClose o Q := .bind (yields_printk (yields_pure (h _ (plain_line (by decide)))))

theorem yields_lay {buf : UserSrc} {off : Int} {n : Nat} {Q : Unit → Out → Prop}
    (hw : ∀ w ∈ Buf.copyTo off n (buf.image n) ++ [((n : Int), 0)],
      Steady view I fun d => { d with writeBuffer := d.writeBuffer.store w })
    (h : ∀ str, Found I (List.finRange BUFFER_SIZE) str → Q () { o with
      stores := o.stores ++ Buf.copyTo off n (buf.image n) ++ [((n : Int), 0)]
      log := o.log ++ [⟨.kernInfo, "Mensaje recibido desde usuario: %s\n", [.s str]⟩] }) :
    Yields view I (lay buf off n) o Q := by
  refine .bind (yields_storeEach (fun w hm => hw w (List.mem_append_left _ hm)) ?_)
  refine .bind (yields_storeByte (hw _ (List.mem_append_right _ List.mem_cons_self)) ?_)
  exact .bind (yields_loadStr fun str hstr => yields_printk (h str hstr))

theorem yields_heed {r : Int × Int} {b : UInt8} {Q : Int × Int → Out → Prop}
    (hv : ∀ f : Vars → Vars, Steady view I fun d => { d with vars := f d.vars })
    (h : ∀ ls, Plain ls → Q r { o with log := o.log ++ ls }) : Yields view I (heed r b) o Q := by
  rw [heed]
  split
  · exact .bind (yields_store (hv fun v => { v with stream := 1 })
      (.bind (yields_printk (yields_pure (h _ (plain_line (by decide)))))))
  · refine .bind (yields_load fun _ _ => ?_)
    split
    · exact .bind (yields_store (hv fun v => { v with stream := 0 })
        (.bind (yields_printk (yields_pure (h _ (plain_line (by decide)))))))
    · have h := h [] plain_nil
      rw [List.append_nil] at h
      exact yields_pure h

/-- A write replies what it replies alone, but for what it logs. -/
theorem yields_write {buf : UserSrc} {off : Int}
    (hw : ∀ w : Store, Steady view I fun d => { d with writeBuffer := d.writeBuffer.store w })
    (hv : ∀ f : Vars → Vars, Steady view I fun d => { d with vars := f d.vars }) :
    Yields view I (pokeWrite buf buf.bytes.length off) {} fun r o =>
      (Reply.ofPair (r, o)).Alike (driver.alone (.write buf off)) := by
  obtain ⟨n, r, hway⟩ := exists_way buf off
  cases hway with
  | stops hs _ hc =>
    rw [hc]
    exact .bind (yields_storeEach (fun w _ => hw w) (yields_pure hs.symm))
  | tests hs hc =>
    rw [hc]
    refine .bind (yields_lay (fun w _ => hw w) fun str _ => .bind (yields_load fun d _ => ?_))
    exact yields_heed hv fun ls _ => ⟨hs.ret.symm, hs.off.symm, hs.stores.symm, hs.user.symm⟩

end Yields

end SO.Access.Pokemon
