import Proyectos.Proof.Stat.Rows
import Proyectos.Proof.Stat.Cut
import Proyectos.Proof.Stat.Vanished
import Proyectos.Proof.Listers
import Proyectos.Proof.Orion.Safety
import Proyectos.Proof.Orion.Mode
import Proyectos.Proof.Orion.Rollback
import Proyectos.Proof.Orion.Send
import Proyectos.Proof.Orion.Pieces
import Proyectos.Proof.Orion.Log
import Proyectos.Proof.Toggle.Mode
import Proyectos.Proof.Toggle.Log
import Proyectos.Proof.Toggle.Accum
import Proyectos.Proof.Toggle.Rollback
import Proyectos.Proof.Toggle.Fresh
import Proyectos.Proof.Toggle.Eof
import Proyectos.Proof.Pokemon.Bounds
import Proyectos.Proof.Pokemon.Mode
import Proyectos.Proof.Pokemon.Sessions
import Proyectos.Proof.Pokemon.Accum
import Proyectos.Proof.Pokemon.Mixed
import Proyectos.Proof.Isolation
import Proyectos.Proof.Overrun
import Proyectos.Proof.Ending
import Proyectos.Proof.Load.Cdev
import Proyectos.Proof.Load.Chrdev
import Proyectos.Proof.Printers.Chars
import Proyectos.Proof.Printers.Lines
import Proyectos.Framework.Decimal
import Proyectos.Framework.Serial
import Proyectos.Proof.Orion.Race
import Proyectos.Proof.Scripts
import Proyectos.Proof.Stat.Beside
import Proyectos.Proof.Status.Aborts
import Proyectos.Proof.Printers.Together
import Proyectos.Proof.Vuln
import Proyectos.Proof.Lifetime.Modules
import Proyectos.Proof.Tables
import Proyectos.Proof.Toggle.Races
import Proyectos.Proof.Answers
import Proyectos.Proof.Strings
