import Proyectos.Impl.Registration
import Proyectos.Kernel.Vfs

/-!
# The `pokemon` driver

`Equipo RAMdom/Examen Final/pokemon.c`, function by function. The terminator
`poke_write` stores is past the array if the whole array was copied; C does not
say what that changes, and here it is only one of the call's stores.
-/

namespace SO.Impl.Pokemon

/-- The static variables, but for the two arrays. -/
structure Vars where
  stream : Int := 0
  deriving DecidableEq, Repr

/-- `kernel_buffer`'s initial string. -/
def message : List UInt8 := utf8 "Un Gastly salvaje aparecio en el kernel!\n"

def init : Dev Vars := { vars := {}, kernelBuffer := .ofBytes message, writeBuffer := .ofBytes [] }

def pokeRead (buffer : UserDst) (_len : Nat) (offset : Int) : Code (CallSt Vars) (Int × Int) := do
  let bytesToRead := (← kernelBuffer).strlen
  if offset ≥ bytesToRead then
    return (0, 0)
  let errors ← copyToUser buffer (← kernelBuffer) bytesToRead
  if errors ≠ 0 then
    printk .kernErr "Error al copiar datos al usuario\n"
    return (-EFAULT, offset)
  let offset := loffT (offset + bytesToRead)
  if (← vars).stream ≠ 0 then
    printk .kernInfo "Modo flujo Pokemon ACTIVADO\n"
  return (int32 bytesToRead, offset)

def pokeWrite (buffer : UserSrc) (len : Nat) (offset : Int) : Code (CallSt Vars) (Int × Int) := do
  if offset ≥ BUFFER_SIZE then
    return (0, offset)
  let len := if sizeT (len + offset) > BUFFER_SIZE then sizeT (BUFFER_SIZE - offset) else len
  if (← copyFromUser offset buffer len) ≠ 0 then
    return (-EFAULT, offset)
  let offset := loffT (offset + len)
  let bytesWritten := int32 len
  -- a store past the array, at `len = BUFFER_SIZE`, changes nothing here
  storeByte len 0
  printk .kernInfo "Mensaje recibido desde usuario: %s\n" [.s (← writeBuffer).cstr]
  if (← writeBuffer).get 0 = '1'.toUInt8 then
    setVars fun v => { v with stream := 1 }
    printk .kernInfo "Modo flujo ACTIVADO\n"
  else if (← writeBuffer).get 0 = '0'.toUInt8 then
    setVars fun v => { v with stream := 0 }
    printk .kernInfo "Modo flujo DESACTIVADO\n"
  return (bytesWritten, offset)

def pokeOpen : Code (CallSt Vars) Int := do
  printk .kernInfo "Entrenador conectado al dispositivo Pokemon\n"
  return 0

def pokeClose : Code (CallSt Vars) Int := do
  printk .kernInfo "Entrenador desconectado del dispositivo Pokemon\n"
  return 0

/-- `fops`. -/
def driver : Driver Vars where
  init := init
  opn := pokeOpen
  release := pokeClose
  read := pokeRead
  write := pokeWrite

/-! ## Loading -/

def deviceName : String := "poke_device"

def loadTexts : ChrdevTexts where
  loading := "El modulo Pokemon fue cargado correctamente\n"
  failed := "No se pudo registrar el dispositivo\n"
  loaded majorNumber :=
    [⟨.kernInfo, "Dispositivo registrado correctamente\n", []⟩,
      ⟨.kernInfo, "Major number asignado: %d\n", [majorNumber]⟩,
      ⟨.kernInfo, "Crear dispositivo con:\n", []⟩,
      ⟨.kernInfo, "mknod /dev/%s c %d 0\n", [.s (some (utf8 deviceName)), majorNumber]⟩]
  unloaded := "El modulo Pokemon fue removido correctamente\n"

def pokeLoad := chrdevLoad loadTexts

def pokeUnload := chrdevUnload loadTexts

def kmodule : Module ChrdevVars Majors RegisterCall where
  init := {}
  load := pokeLoad
  unload := pokeUnload

end SO.Impl.Pokemon
