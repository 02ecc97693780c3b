import Proyectos.Impl.Registration
import Proyectos.Kernel.Vfs

/-!
# The `orion` driver

`Equipo-Macrohard/Examen3.c`, function by function.
-/

namespace SO.Impl.Orion

/-- The static variables, but for the two arrays. -/
structure Vars where
  exitFlag : Int := 0
  stream : Int := 0
  deviceOpenCount : Int := 0
  /-- `orion_mutex` is locked. -/
  orionMutex : Bool := false
  deriving DecidableEq, Repr

/-- `kernel_buffer`'s initial string. -/
def message : List UInt8 := utf8 "[ORION] Enlace de datos estable. Telemetría nominal.\n"

def init : Dev Vars := { vars := {}, kernelBuffer := .ofBytes message, writeBuffer := .ofBytes [] }

def mutexLock : Code (CallSt Vars) Unit := setVars fun v => { v with orionMutex := true }

def mutexUnlock : Code (CallSt Vars) Unit := setVars fun v => { v with orionMutex := false }

def orionRead (buf : UserDst) (len : Nat) (off : Int) : Code (CallSt Vars) (Int × Int) := do
  let bytesToRead := min len (← kernelBuffer).strlen
  if (← vars).exitFlag = 0 then
    if (← vars).stream = 0 then
      setVars fun v => { v with exitFlag := 1 }
    let errors ← copyToUser buf (← kernelBuffer) bytesToRead
    if errors ≠ 0 then
      printk .kernErr "orion: Fallo al copiar datos al espacio de usuario.\n"
      return (-EFAULT, off)
    return (bytesToRead, off)
  else
    setVars fun v => { v with exitFlag := 0 }
    return (0, off)

def orionWrite (buffer : UserSrc) (len : Nat) (offset : Int) : Code (CallSt Vars) (Int × Int) := do
  let bytesToCopy := min len (BUFFER_SIZE - 1)
  mutexLock
  if (← copyFromUser 0 buffer bytesToCopy) ≠ 0 then
    mutexUnlock
    return (-EFAULT, offset)
  storeByte bytesToCopy 0
  if (← writeBuffer).get 0 = '1'.toUInt8 then
    setVars fun v => { v with stream := 1 }
    setVars fun v => { v with exitFlag := 0 }
    printk .kernInfo "orion: Modo flujo ACTIVADO. Transmitiendo señal continua...\n"
  else if (← writeBuffer).get 0 = '0'.toUInt8 then
    setVars fun v => { v with stream := 0 }
    printk .kernInfo "orion: Modo flujo DESACTIVADO.\n"
  else
    printk .kernInfo "orion: Cadena recibida desde control: %s\n" [.s (← writeBuffer).cstr]
  mutexUnlock
  return (bytesToCopy, offset)

def orionOpen : Code (CallSt Vars) Int := do
  mutexLock
  setVars fun v => { v with deviceOpenCount := int32 (v.deviceOpenCount + 1) }
  printk .kernInfo "orion: Dispositivo abierto. Sesiones activas: %d\n" [.d (← vars).deviceOpenCount]
  mutexUnlock
  return 0

def orionClose : Code (CallSt Vars) Int := do
  mutexLock
  setVars fun v => { v with deviceOpenCount := int32 (v.deviceOpenCount - 1) }
  printk .kernInfo "orion: Conexión cerrada. Sesiones activas: %d\n" [.d (← vars).deviceOpenCount]
  mutexUnlock
  return 0

/-- `fops`. -/
def driver : Driver Vars where
  init := init
  opn := orionOpen
  release := orionClose
  read := orionRead
  write := orionWrite

/-! ## Loading -/

def loadTexts : CdevTexts where
  loading := "orion: Iniciando secuencia de carga del módulo de comunicaciones.\n"
  regionFailed := "orion: No se pudo asignar el número de dispositivo.\n"
  registered := "orion: Dispositivo registrado - Major: %d, Minor: %d\n"
  classFailed := "orion: No se pudo crear la clase.\n"
  deviceFailed := "orion: No se pudo crear el archivo de dispositivo.\n"
  addFailed := "orion: Falló el registro del dispositivo en el kernel.\n"
  unloaded := "orion: Módulo descargado. Fin de la transmisión.\n"

/-- The class is checked with `IS_ERR`. -/
def orionLoad := cdevLoad loadTexts Ptr.isErr

def orionUnload := cdevUnload loadTexts

def kmodule : Module CdevVars Held CdevCalls where
  init := {}
  load := orionLoad
  unload := orionUnload

end SO.Impl.Orion
