import Proyectos.Kernel.Yields
import Proyectos.Proof.Toggle.Threads

/-!
# `luffy`, `madre` and `chaleco`: what a call that others run beside comes to

In states with an invariant `I`, whatever runs beside it.
-/

namespace SO.Access.Toggle

open SO.Impl.Toggle (Texts Vars driver)

variable (x : Texts) {π : Type} {view : Dev Vars → π} {I : Dev Vars → Prop} {o : Out}

/-- What a write does once it has toggled the mode. -/
def receive (buffer : UserSrc) (len : Nat) (offset : Int) : Access Vars (Int × Int) := do
  if offset ≥ BUFFER_SIZE then
    return (0, offset)
  let len := if sizeT (len + offset) > BUFFER_SIZE then sizeT (BUFFER_SIZE - offset) else len
  if (← copyFromUser offset buffer len) ≠ 0 then
    return (-EFAULT, offset)
  let offset := loffT (offset + len)
  let bytesWritten := int32 len
  printk .kernInfo x.bytesReceived [.d bytesWritten]
  let str ← loadStr (List.finRange BUFFER_SIZE)
  printk .kernInfo x.stringReceived [.s str]
  printk .kernInfo "Saliendo a write\n"
  return (bytesWritten, offset)

theorem toggleWrite_eq (buf : UserSrc) (len : Nat) (off : Int) :
    toggleWrite x buf len off = (do
      printk .kernInfo "Entrando a write\n"
      let s ← load (·.vars.stream)
      store fun v => { v with stream := if s = 0 then 1 else 0 }
      receive x buf len off) := by
  refine congrArg (_ >>= ·) (funext fun _ => congrArg (_ >>= ·) (funext fun s => ?_))
  by_cases hs : s = 0
  · simp only [if_pos hs]
    rfl
  · simp only [if_neg hs]
    rfl

/-- What is left of a write once it has toggled the mode. -/
theorem yields_receive {buf : UserSrc} {len : Nat} {off : Int} {Q : Int × Int → Out → Prop}
    (hw : ∀ w : Store, Steady view I fun d => { d with writeBuffer := d.writeBuffer.store w })
    (far : off ≥ BUFFER_SIZE → Q (0, off) o)
    (fault : ∀ n, ¬ off ≥ BUFFER_SIZE →
      (if sizeT (len + off) > BUFFER_SIZE then sizeT (BUFFER_SIZE - off) else len) = n →
      min buf.missed n ≠ 0 →
        Q (-EFAULT, off) { o with stores := o.stores ++ Buf.copyTo off n (buf.image n) })
    (ok : ∀ n, ¬ off ≥ BUFFER_SIZE →
      (if sizeT (len + off) > BUFFER_SIZE then sizeT (BUFFER_SIZE - off) else len) = n →
      min buf.missed n = 0 → ∀ str ls ls', Found I (List.finRange BUFFER_SIZE) str → Plain ls →
        Plain ls' → Q (int32 n, loffT (off + n)) { o with
          stores := o.stores ++ Buf.copyTo off n (buf.image n)
          log := o.log ++ ls ++ [⟨.kernInfo, x.stringReceived, [.s str]⟩] ++ ls' }) :
    Yields view I (receive x buf len off) o Q := by
  rw [receive]
  split
  · rename_i h
    exact yields_pure (far h)
  · rename_i h
    generalize hn : (if sizeT (len + off) > BUFFER_SIZE then sizeT (BUFFER_SIZE - off)
      else len) = n
    refine .bind (yields_copyFromUser (fun w _ => hw w) ?_)
    split
    · rename_i hf
      exact yields_pure (fault n h hn hf)
    · rename_i hf
      refine .bind (yields_printk (.bind (yields_loadStr fun str hstr => ?_)))
      refine .bind (yields_printk (.bind (yields_printk (yields_pure ?_))))
      exact ok n h hn (not_not.mp hf) str _ _ hstr (plain_line (by simp [Line.Terminated]))
        (plain_line (by decide))

/-- A write, by what is left of it once it has toggled the mode. -/
theorem yields_toggle {buf : UserSrc} {len : Nat} {off : Int} {Q : Int × Int → Out → Prop}
    (hv : ∀ s : Int, Steady view I fun d => { d with vars := { d.vars with stream := s } })
    (h : ∀ ls, Plain ls → Yields view I (receive x buf len off) { o with log := o.log ++ ls } Q) :
    Yields view I (toggleWrite x buf len off) o Q := by
  rw [toggleWrite_eq]
  refine .bind (yields_printk (.bind (yields_load fun d _ => ?_)))
  exact .bind (yields_store (hv _) (h _ (plain_line (by decide))))

/-- What a write replies is settled once it has toggled the mode. -/
theorem yields_settled {buf : UserSrc} {off : Int}
    (hw : ∀ w : Store, Steady view I fun d => { d with writeBuffer := d.writeBuffer.store w })
    (hs : o.stores = []) (hu : o.user = []) :
    Yields view I (receive x buf buf.bytes.length off) o fun r o' =>
      (Reply.ofPair (r, o')).Alike ((driver x).alone (.write buf off)) := by
  refine yields_receive x hw (fun h => ?_) (fun n h hn hf => ?_) fun n h hn hf str ls ls' _ _ _ => ?_
  · simp only [Driver.alone, Driver.enter, driver, Proof.Toggle.toggleWrite_far x _ buf _ off h]
    exact ⟨rfl, rfl, hs, hu⟩
  · simp only [Driver.alone, Driver.enter, driver,
      Proof.Toggle.toggleWrite_fault x _ buf _ off h hn hf]
    exact ⟨rfl, rfl, congrArg (· ++ _) hs, hu⟩
  · simp only [Driver.alone, Driver.enter, driver,
      Proof.Toggle.toggleWrite_ok x _ buf _ off h hn hf rfl]
    exact ⟨rfl, rfl, congrArg (· ++ _) hs, hu⟩

/-- A write replies what it replies alone, but for what it logs. -/
theorem yields_write {buf : UserSrc} {off : Int}
    (hw : ∀ w : Store, Steady view I fun d => { d with writeBuffer := d.writeBuffer.store w })
    (hv : ∀ s : Int, Steady view I fun d => { d with vars := { d.vars with stream := s } }) :
    Yields view I (toggleWrite x buf buf.bytes.length off) {} fun r o' =>
      (Reply.ofPair (r, o')).Alike ((driver x).alone (.write buf off)) :=
  yields_toggle x hv fun _ _ => yields_settled x hw rfl rfl

theorem yields_open {Q : Int → Out → Prop}
    (hv : ∀ n : Int, Steady view I fun d => { d with vars := { d.vars with deviceOpenCount := n } })
    (h : ∀ ls, Plain ls → Q 0 { o with log := o.log ++ ls }) : Yields view I (toggleOpen x) o Q :=
  .bind (yields_load fun _ _ => .bind (yields_store (hv _) (.bind (yields_printk (yields_pure
    (h _ (plain_line (by simp [Line.Terminated]))))))))

theorem yields_close {Q : Int → Out → Prop} (h : ∀ ls, Plain ls → Q 0 { o with log := o.log ++ ls }) :
    Yields view I (toggleClose x) o Q :=
  .bind (yields_printk (yields_pure (h _ (plain_line (by simp [Line.Terminated])))))

/-- A read, by the `kernel_buffer` it finds at its `strlen` and at its copy. It stores into
`exit` alone. -/
theorem yields_read (buf : UserDst) (len : Nat) (off : Int) {Q : Int × Int → Out → Prop}
    (hv : ∀ e : Int, Steady view I fun d => { d with vars := { d.vars with exit := e } })
    (eof : Q (0, off) o)
    (fault : ∀ d d', I d → I d' → min buf.missed d.kernelBuffer.strlen ≠ 0 → ∀ ls, Plain ls →
      Q (-EFAULT, off) { o with
        log := o.log ++ ls
        user := o.user ++ d'.kernelBuffer.bytes.take
          (d.kernelBuffer.strlen - min buf.missed d.kernelBuffer.strlen) })
    (ok : ∀ d d', I d → I d' → min buf.missed d.kernelBuffer.strlen = 0 → ∀ ls, Plain ls →
      Q (int32 d.kernelBuffer.strlen, off) { o with
        log := o.log ++ ls
        user := o.user ++ d'.kernelBuffer.bytes.take
          (d.kernelBuffer.strlen - min buf.missed d.kernelBuffer.strlen) }) :
    Yields view I (toggleRead x buf len off) o Q := by
  have hcopy : ∀ d, I d → ∀ ls, Plain ls → Yields view I (do
      let errors ← copyToUser buf d.kernelBuffer.strlen
      if errors ≠ 0 then
        store fun v : Vars => { v with exit := 0 }
        printk .kernErr x.readError
        return (-EFAULT, off)
      else
        return (int32 d.kernelBuffer.strlen, off)) { o with log := o.log ++ ls } Q :=
    fun d hd ls hls => by
      refine .bind (yields_copyToUser fun d' hd' => ?_)
      split
      · rename_i hf
        refine .bind (yields_store (hv 0) (.bind (yields_printk (yields_pure ?_))))
        have h := fault d d' hd hd' hf (ls ++ [⟨.kernErr, x.readError, []⟩])
          (List.forall_mem_append.mpr ⟨hls, plain_line (by simp [Line.Terminated])⟩)
        rwa [← List.append_assoc] at h
      · rename_i hf
        exact yields_pure (ok d d' hd hd' (not_not.mp hf) _ hls)
  refine .bind (yields_load fun d hd => .bind (yields_load fun _ _ => ?_))
  split
  · refine .bind (yields_load fun _ _ => ?_)
    split
    · exact .bind (yields_printk (hcopy d hd _ (plain_line (by decide))))
    · exact .bind (yields_printk (.bind (yields_store (hv 1) (hcopy d hd _ (plain_line (by decide))))))
  · exact .bind (yields_store (hv 0) (yields_pure eof))

end SO.Access.Toggle
