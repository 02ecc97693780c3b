import Proyectos.Kernel.Loader

/-!
# Load and unload functions

Two families. `cdevLoad` is the load function of `orion` and `luffy`, which
differ in their texts and in how they check the class; `chrdevLoad` is that of
`madre`, `chaleco` and `pokemon`, which differ in their texts. Each driver's own
functions are in its module.
-/

namespace SO.Impl

/-! ## With a `cdev` -/

/-- The static variables of the load functions; `my_cdev` is passed on only. -/
structure CdevVars where
  deviceNumbers : Nat := 0
  myClass : Ptr := .null
  deriving DecidableEq, Repr

/-- The lines logged. -/
structure CdevTexts where
  loading : String
  regionFailed : String
  registered : String
  classFailed : String
  deviceFailed : String
  addFailed : String
  unloaded : String

section Cdev

variable (x : CdevTexts)

/-- The label `ClassError`. -/
def classError : Code (LoadSt CdevVars Held) Int := do
  releaseRes .region
  return -1

/-- The label `FileError`. -/
def fileError : Code (LoadSt CdevVars Held) Int := do
  releaseRes .cls
  classError

/-- The label `AddError`. -/
def addError : Code (LoadSt CdevVars Held) Int := do
  releaseRes .device
  fileError

/-- `classFails` is the driver's check of the pointer `class_create` returns. -/
def cdevLoad (classFails : Ptr → Bool) (g : CdevCalls) : Code (LoadSt CdevVars Held) Int := do
  logLine .kernInfo x.loading
  if (← acquireInt .region g.allocChrdevRegion) < 0 then
    logLine .kernAlert x.regionFailed
    return -1
  setModuleVars fun v => { v with deviceNumbers := g.deviceNumbers }
  let dev := (← moduleVars).deviceNumbers
  logLine .kernInfo x.registered [.d (major dev), .d (minor dev)]
  let myClass ← acquirePtr .cls g.classCreate
  setModuleVars fun v => { v with myClass := myClass }
  if classFails (← moduleVars).myClass then
    logLine .kernAlert x.classFailed
    return ← classError
  if (← acquirePtr .device g.deviceCreate) = .null then
    logLine .kernAlert x.deviceFailed
    return ← fileError
  if (← acquireInt .cdev g.cdevAdd) = -1 then
    logLine .kernAlert x.addFailed
    return ← addError
  return 0

def cdevUnload : Code (LoadSt CdevVars Held) Unit := do
  releaseRes .cdev
  releaseRes .device
  releaseRes .cls
  releaseRes .region
  logLine .kernInfo x.unloaded

end Cdev

/-! ## With `register_chrdev` -/

/-- `major_number`, a `dev_t`. -/
structure ChrdevVars where
  majorNumber : Nat := 0
  deriving DecidableEq, Repr

/-- The lines logged; `loaded` is given `major_number`. -/
structure ChrdevTexts where
  loading : String
  failed : String
  loaded : Arg → List Line
  unloaded : String

section Chrdev

variable (x : ChrdevTexts)

def chrdevLoad (g : RegisterCall) : Code (LoadSt ChrdevVars Majors) Int := do
  logLine .kernInfo x.loading
  let majorNumber ← registerChrdev g
  setModuleVars fun v => { v with majorNumber := devT majorNumber }
  if ((← moduleVars).majorNumber : Int) < 0 then
    logLine .kernAlert x.failed
    return int32 (← moduleVars).majorNumber
  logLines (x.loaded (.d (int32 (← moduleVars).majorNumber)))
  return 0

def chrdevUnload : Code (LoadSt ChrdevVars Majors) Unit := do
  unregisterChrdev (← moduleVars).majorNumber
  logLine .kernInfo x.unloaded

end Chrdev

end SO.Impl
