/-
The simulated scene shows in names and texts only.

A run that simulates the scene and one that does not start in contexts that are alike, so
their walks end in the same way and with the same skeleton.  Neither asks for an object that
is not there, and what they recover nests, so nothing after the walk tells them apart: they
have the same failure, limits, strings and diagnostics, up to the texts of the last.
-/
import LuaRecovery.Proofs.Recoveries
import LuaRecovery.Proofs.SideBySide

namespace LuaRecovery

namespace Recovery

end Recovery

end LuaRecovery
