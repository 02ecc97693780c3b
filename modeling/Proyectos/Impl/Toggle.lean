import Proyectos.Impl.Registration
import Proyectos.Kernel.Vfs

/-!
# The `luffy`, `madre` and `chaleco` drivers

`examples/kernel_module/luffy/luffy.c`, `examples/kernel_module/madre/madre.c`
and `Equipo Windon´ts/chaleco.c`. The file operations of the three differ in
the texts they hold (`Texts`) only; they register themselves in different
ways.
-/

namespace SO.Impl.Toggle

/-- What the drivers differ in: `kernel_buffer`'s initial string, which
fits the array and is not empty, and the texts of the log. -/
structure Texts where
  deviceName : String
  message : List UInt8
  readError : String
  bytesReceived : String
  stringReceived : String
  closed : String
  message_noNul : 0 ∉ message
  message_pos : 0 < message.length
  message_le : message.length ≤ BUFFER_SIZE

/-- The static variables, but for the two arrays. -/
structure Vars where
  exit : Int := 0
  stream : Int := 0
  deviceOpenCount : Int := 0
  deriving DecidableEq, Repr

section Operations

variable (x : Texts)

def init : Dev Vars := { vars := {}, kernelBuffer := .ofBytes x.message, writeBuffer := .ofBytes [] }

def toggleRead (buf : UserDst) (_len : Nat) (off : Int) : Code (CallSt Vars) (Int × Int) := do
  let bytesToRead := (← kernelBuffer).strlen
  if (← vars).exit = 0 then
    if (← vars).stream ≠ 0 then
      printk .none "Stream Activado"
    else
      printk .none "Stream Desactivado"
      setVars fun v => { v with exit := 1 }
    let errors ← copyToUser buf (← kernelBuffer) bytesToRead
    if errors ≠ 0 then
      setVars fun v => { v with exit := 0 }
      printk .kernErr x.readError
      return (-EFAULT, off)
    else
      return (int32 bytesToRead, off)
  else
    setVars fun v => { v with exit := 0 }
    return (0, off)

def toggleWrite (buffer : UserSrc) (len : Nat) (offset : Int) : Code (CallSt Vars) (Int × Int) := do
  printk .kernInfo "Entrando a write\n"
  if (← vars).stream = 0 then
    setVars fun v => { v with stream := 1 }
  else
    setVars fun v => { v with stream := 0 }
  if offset ≥ BUFFER_SIZE then
    return (0, offset)
  let len := if sizeT (len + offset) > BUFFER_SIZE then sizeT (BUFFER_SIZE - offset) else len
  if (← copyFromUser offset buffer len) ≠ 0 then
    return (-EFAULT, offset)
  let offset := loffT (offset + len)
  let bytesWritten := int32 len
  printk .kernInfo x.bytesReceived [.d bytesWritten]
  printk .kernInfo x.stringReceived [.s (← writeBuffer).cstr]
  printk .kernInfo "Saliendo a write\n"
  return (bytesWritten, offset)

def toggleOpen : Code (CallSt Vars) Int := do
  setVars fun v => { v with deviceOpenCount := int32 (v.deviceOpenCount + 1) }
  printk .kernInfo "Se abrió el dispositivo: %s\n" [.s (some (utf8 x.deviceName))]
  return 0

def toggleClose : Code (CallSt Vars) Int := do
  printk .kernInfo x.closed
  return 0

/-- `fops`. -/
def driver : Driver Vars where
  init := init x
  opn := toggleOpen x
  release := toggleClose x
  read := toggleRead x
  write := toggleWrite x

end Operations

/-! ## The three drivers -/

def luffyTexts : Texts where
  deviceName := "luffy"
  message := utf8 "El cielo resplandece a mi alrededoooor"
  readError := "mydevice: Failed to copy data to user.\n"
  bytesReceived := "chardev: Received %d bytes from the user\n"
  stringReceived := "chardev: Received %s from the user\n"
  closed := "Cerrando disponsitivo Sonreiré el día de ho-ho-ho-ho-hoy\n"
  message_noNul := by decide
  message_pos := by decide
  message_le := by decide

def madreTexts : Texts where
  deviceName := "madre"
  message := utf8 "El cielo resplandece a mi alrededoooor"
  readError := "mydevice: Failed to copy data to user.\n"
  bytesReceived := "chardev: Received %d bytes from the user\n"
  stringReceived := "chardev: Received %s from the user\n"
  closed := "Cerrando disponsitivo Sonreiré el día de ho-ho-ho-ho-hoy\n"
  message_noNul := by decide
  message_pos := by decide
  message_le := by decide

def chalecoTexts : Texts where
  deviceName := "chaleco"
  message := utf8 "las mangas del chaleco"
  readError := "chaleco: Failed to copy data to user.\n"
  bytesReceived := "chaleco: Received %d bytes from the user\n"
  stringReceived := "chaleco: Received %s from the user\n"
  closed := "Cerrando dispositivo chaleco\n"
  message_noNul := by decide
  message_pos := by decide
  message_le := by decide

def luffyRead := toggleRead luffyTexts
def luffyWrite := toggleWrite luffyTexts
def luffyOpen := toggleOpen luffyTexts
def luffyClose := toggleClose luffyTexts

def madreRead := toggleRead madreTexts
def madreWrite := toggleWrite madreTexts
def madreOpen := toggleOpen madreTexts
def madreClose := toggleClose madreTexts

def chalecoRead := toggleRead chalecoTexts
def chalecoWrite := toggleWrite chalecoTexts
def chalecoOpen := toggleOpen chalecoTexts
def chalecoClose := toggleClose chalecoTexts

/-- `luffy`'s `fops`. -/
def luffy : Driver Vars := ⟨init luffyTexts, luffyOpen, luffyClose, luffyRead, luffyWrite⟩

/-- `madre`'s `fops`. -/
def madre : Driver Vars := ⟨init madreTexts, madreOpen, madreClose, madreRead, madreWrite⟩

/-- `chaleco`'s `fops`. -/
def chaleco : Driver Vars := ⟨init chalecoTexts, chalecoOpen, chalecoClose, chalecoRead, chalecoWrite⟩

/-! ## Loading -/

def luffyLoadTexts : CdevTexts where
  loading := "Ya llegó la luffy a jalarte las patas\n"
  regionFailed := "luffy: Device Number could not be allocated\n"
  registered := "luffy: Device Numbers Major: %d, Minor: %d was registered\n"
  classFailed := "luffy: Class could not be created\n"
  deviceFailed := "luffy: Device could not be created\n"
  addFailed := "luffy: Registering of device to kernel failed\n"
  unloaded := "luffy: Goodbye, King of Pirates!!\n"

/-- The class is checked against `NULL`. -/
def luffyLoad := cdevLoad luffyLoadTexts (· = .null)

def luffyUnload := cdevUnload luffyLoadTexts

def luffyModule : Module CdevVars Held CdevCalls := ⟨{}, luffyLoad, luffyUnload⟩

/-- The lines `madre` and `chaleco` log once they are registered. -/
def loadedLines (first deviceName : String) (majorNumber : Arg) : List Line :=
  [⟨.kernInfo, first, []⟩,
    ⟨.kernInfo, "I was assigned major number %d. To talk to\n", [majorNumber]⟩,
    ⟨.kernInfo, "the driver, create a dev file with\n", []⟩,
    ⟨.kernInfo, "'mknod /dev/%s c %d 0'.\n", [.s (some (utf8 deviceName)), majorNumber]⟩,
    ⟨.kernInfo, "Try various minor numbers. Try to cat and echo to\n", []⟩,
    ⟨.kernInfo, "the device file.\n", []⟩,
    ⟨.kernInfo, "Remove the device file and module when done.\n", []⟩]

def madreLoadTexts : ChrdevTexts where
  loading := "Ya llegó la madre a jalarte las patas\n"
  failed := "simple_module: Failed to register a major number\n"
  loaded := loadedLines "Cargando Módulo Chirisco!\n" madreTexts.deviceName
  unloaded := "No le saque!!\n"

def madreLoad := chrdevLoad madreLoadTexts

/-- `madre` does not unregister. -/
def madreUnload : Code (LoadSt ChrdevVars Majors) Unit := logLine .kernInfo madreLoadTexts.unloaded

def madreModule : Module ChrdevVars Majors RegisterCall := ⟨{}, madreLoad, madreUnload⟩

def chalecoLoadTexts : ChrdevTexts where
  loading := "Cargando el módulo chaleco\n"
  failed := "chaleco: Failed to register a major number\n"
  loaded := loadedLines "Cargando Módulo chaleco!\n" chalecoTexts.deviceName
  unloaded := "Descargando módulo chaleco\n"

def chalecoLoad := chrdevLoad chalecoLoadTexts

def chalecoUnload := chrdevUnload chalecoLoadTexts

def chalecoModule : Module ChrdevVars Majors RegisterCall := ⟨{}, chalecoLoad, chalecoUnload⟩

end SO.Impl.Toggle
