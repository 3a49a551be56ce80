import LuaRecovery.TraceLog
import LuaRecovery.Proofs.AtomicLiterals
import LuaRecovery.Proofs.BalancedTexts
import LuaRecovery.Proofs.CallRecords
import LuaRecovery.Proofs.DepthAccounts
import LuaRecovery.Proofs.DiagnosticPlaces
import LuaRecovery.Proofs.ExpressionRoundTrip
import LuaRecovery.Proofs.KeptConstants
import LuaRecovery.Proofs.KeptLines
import LuaRecovery.Proofs.LimitedRuns
import LuaRecovery.Proofs.LiveHandles
import LuaRecovery.Proofs.Lockstep
import LuaRecovery.Proofs.PayloadSpellings
import LuaRecovery.Proofs.RegisterHistories
import LuaRecovery.Proofs.SceneKeys
import LuaRecovery.Proofs.ServiceLookups
import LuaRecovery.Proofs.StringsMet
import LuaRecovery.Proofs.SurfacedFailures
