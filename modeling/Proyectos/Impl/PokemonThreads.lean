import Proyectos.Impl.Pokemon
import Proyectos.Kernel.Access

/-!
# The `pokemon` driver, access by access

The file operations of `Equipo RAMdom/Examen Final/pokemon.c`, which take no
mutex, as threads. `poke_write` loads the first byte of `write_buffer` once for
each of its two comparisons.
-/

namespace SO.Access.Pokemon

open SO.Impl.Pokemon (Vars)

def pokeRead (buffer : UserDst) (_len : Nat) (offset : Int) : Access Vars (Int × Int) := do
  let bytesToRead ← load (·.kernelBuffer.strlen)
  if offset ≥ bytesToRead then
    return (0, 0)
  let errors ← copyToUser buffer bytesToRead
  if errors ≠ 0 then
    printk .kernErr "Error al copiar datos al usuario\n"
    return (-EFAULT, offset)
  let offset := loffT (offset + bytesToRead)
  if (← load (·.vars.stream)) ≠ 0 then
    printk .kernInfo "Modo flujo Pokemon ACTIVADO\n"
  return (int32 bytesToRead, offset)

def pokeWrite (buffer : UserSrc) (len : Nat) (offset : Int) : Access Vars (Int × Int) := do
  if offset ≥ BUFFER_SIZE then
    return (0, offset)
  let len := if sizeT (len + offset) > BUFFER_SIZE then sizeT (BUFFER_SIZE - offset) else len
  if (← copyFromUser offset buffer len) ≠ 0 then
    return (-EFAULT, offset)
  let offset := loffT (offset + len)
  let bytesWritten := int32 len
  -- a store past the array, at `len = BUFFER_SIZE`, changes nothing here
  storeByte len 0
  let str ← loadStr (List.finRange BUFFER_SIZE)
  printk .kernInfo "Mensaje recibido desde usuario: %s\n" [.s str]
  if (← load (·.writeBuffer.get 0)) = '1'.toUInt8 then
    store fun v => { v with stream := 1 }
    printk .kernInfo "Modo flujo ACTIVADO\n"
  else if (← load (·.writeBuffer.get 0)) = '0'.toUInt8 then
    store fun v => { v with stream := 0 }
    printk .kernInfo "Modo flujo DESACTIVADO\n"
  return (bytesWritten, offset)

def pokeOpen : Access Vars Int := do
  printk .kernInfo "Entrenador conectado al dispositivo Pokemon\n"
  return 0

def pokeClose : Access Vars Int := do
  printk .kernInfo "Entrenador desconectado del dispositivo Pokemon\n"
  return 0

/-- `fops`. -/
def fops : Fops Vars where
  opn := pokeOpen
  release := pokeClose
  read := pokeRead
  write := pokeWrite

/-- The threads when the module is loaded: none is in a call. -/
def boot : Threads (Dev Vars) Fop Reply := { shared := Impl.Pokemon.init }

end SO.Access.Pokemon
