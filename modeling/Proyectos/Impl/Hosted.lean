import Proyectos.Kernel.Lifetime
import Proyectos.Impl.Orion
import Proyectos.Impl.Toggle
import Proyectos.Impl.Pokemon

/-!
# The drivers' modules, with their `fops`

`orion` alone names the module as its `fops`'s owner. The registrations that
stand are those of the `cdev` or the major numbers.
-/

namespace SO.Impl

def Orion.hosted : Hosted CdevVars Held CdevCalls where
  toModule := Orion.kmodule
  owner := true
  standing h := h.count .cdev

namespace Toggle

def luffyHosted : Hosted CdevVars Held CdevCalls where
  toModule := luffyModule
  owner := false
  standing h := h.count .cdev

def madreHosted : Hosted ChrdevVars Majors RegisterCall where
  toModule := madreModule
  owner := false
  standing h := h.registered.length

def chalecoHosted : Hosted ChrdevVars Majors RegisterCall where
  toModule := chalecoModule
  owner := false
  standing h := h.registered.length

end Toggle

def Pokemon.hosted : Hosted ChrdevVars Majors RegisterCall where
  toModule := Pokemon.kmodule
  owner := false
  standing h := h.registered.length

end SO.Impl
