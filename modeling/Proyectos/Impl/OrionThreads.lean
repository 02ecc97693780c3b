import Proyectos.Impl.Orion
import Proyectos.Kernel.Access

/-!
# The `orion` driver, access by access

The file operations of `Equipo-Macrohard/Examen3.c` as threads. `orion_mutex` is
the threads' mutex, and not a variable.
-/

namespace SO.Access.Orion

open SO.Impl.Orion (Vars)

def orionRead (buf : UserDst) (len : Nat) (off : Int) : Access Vars (Int × Int) := do
  let bytesToRead := min len (← load (·.kernelBuffer.strlen))
  if (← load (·.vars.exitFlag)) = 0 then
    if (← load (·.vars.stream)) = 0 then
      store fun v => { v with exitFlag := 1 }
    let errors ← copyToUser buf bytesToRead
    if errors ≠ 0 then
      printk .kernErr "orion: Fallo al copiar datos al espacio de usuario.\n"
      return (-EFAULT, off)
    return (bytesToRead, off)
  else
    store fun v => { v with exitFlag := 0 }
    return (0, off)

def orionWrite (buffer : UserSrc) (len : Nat) (offset : Int) : Access Vars (Int × Int) := do
  let bytesToCopy := min len (BUFFER_SIZE - 1)
  mutexLock
  if (← copyFromUser 0 buffer bytesToCopy) ≠ 0 then
    mutexUnlock
    return (-EFAULT, offset)
  storeByte bytesToCopy 0
  if (← load (·.writeBuffer.get 0)) = '1'.toUInt8 then
    store fun v => { v with stream := 1 }
    store fun v => { v with exitFlag := 0 }
    printk .kernInfo "orion: Modo flujo ACTIVADO. Transmitiendo señal continua...\n"
  else if (← load (·.writeBuffer.get 0)) = '0'.toUInt8 then
    store fun v => { v with stream := 0 }
    printk .kernInfo "orion: Modo flujo DESACTIVADO.\n"
  else
    let str ← loadStr (List.finRange BUFFER_SIZE)
    printk .kernInfo "orion: Cadena recibida desde control: %s\n" [.s str]
  mutexUnlock
  return (bytesToCopy, offset)

def orionOpen : Access Vars Int := do
  mutexLock
  let n ← load (·.vars.deviceOpenCount)
  store fun v => { v with deviceOpenCount := int32 (n + 1) }
  let count ← load (·.vars.deviceOpenCount)
  printk .kernInfo "orion: Dispositivo abierto. Sesiones activas: %d\n" [.d count]
  mutexUnlock
  return 0

def orionClose : Access Vars Int := do
  mutexLock
  let n ← load (·.vars.deviceOpenCount)
  store fun v => { v with deviceOpenCount := int32 (n - 1) }
  let count ← load (·.vars.deviceOpenCount)
  printk .kernInfo "orion: Conexión cerrada. Sesiones activas: %d\n" [.d count]
  mutexUnlock
  return 0

/-- `fops`. -/
def fops : Fops Vars where
  opn := orionOpen
  release := orionClose
  read := orionRead
  write := orionWrite

/-- The threads when the module is loaded: none is in a call. -/
def boot : Threads (Dev Vars) Fop Reply := { shared := SO.Impl.Orion.init }

end SO.Access.Orion
