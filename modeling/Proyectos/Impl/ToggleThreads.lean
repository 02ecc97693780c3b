import Proyectos.Impl.Toggle
import Proyectos.Kernel.Access

/-!
# The `luffy`, `madre` and `chaleco` drivers, access by access

The file operations of the three, which take no mutex, as threads.
`device_open_count++` is a load and a store.
-/

namespace SO.Access.Toggle

open SO.Impl.Toggle (Texts Vars)

section Operations

variable (x : Texts)

def toggleRead (buf : UserDst) (_len : Nat) (off : Int) : Access Vars (Int × Int) := do
  let bytesToRead ← load (·.kernelBuffer.strlen)
  if (← load (·.vars.exit)) = 0 then
    if (← load (·.vars.stream)) ≠ 0 then
      printk .none "Stream Activado"
    else
      printk .none "Stream Desactivado"
      store fun v => { v with exit := 1 }
    let errors ← copyToUser buf bytesToRead
    if errors ≠ 0 then
      store fun v => { v with exit := 0 }
      printk .kernErr x.readError
      return (-EFAULT, off)
    else
      return (int32 bytesToRead, off)
  else
    store fun v => { v with exit := 0 }
    return (0, off)

def toggleWrite (buffer : UserSrc) (len : Nat) (offset : Int) : Access Vars (Int × Int) := do
  printk .kernInfo "Entrando a write\n"
  if (← load (·.vars.stream)) = 0 then
    store fun v => { v with stream := 1 }
  else
    store fun v => { v with stream := 0 }
  if offset ≥ BUFFER_SIZE then
    return (0, offset)
  let len := if sizeT (len + offset) > BUFFER_SIZE then sizeT (BUFFER_SIZE - offset) else len
  if (← copyFromUser offset buffer len) ≠ 0 then
    return (-EFAULT, offset)
  let offset := loffT (offset + len)
  let bytesWritten := int32 len
  printk .kernInfo x.bytesReceived [.d bytesWritten]
  let str ← loadStr (List.finRange BUFFER_SIZE)
  printk .kernInfo x.stringReceived [.s str]
  printk .kernInfo "Saliendo a write\n"
  return (bytesWritten, offset)

def toggleOpen : Access Vars Int := do
  let n ← load (·.vars.deviceOpenCount)
  store fun v => { v with deviceOpenCount := int32 (n + 1) }
  printk .kernInfo "Se abrió el dispositivo: %s\n" [.s (some (utf8 x.deviceName))]
  return 0

def toggleClose : Access Vars Int := do
  printk .kernInfo x.closed
  return 0

/-- `fops`. -/
def fops : Fops Vars where
  opn := toggleOpen x
  release := toggleClose x
  read := toggleRead x
  write := toggleWrite x

/-- The threads when the module is loaded: none is in a call. -/
def boot : Threads (Dev Vars) Fop Reply := { shared := Impl.Toggle.init x }

end Operations

end SO.Access.Toggle
