import PLZero.Main
import PLZero.Proofs.Accepted
import PLZero.Proofs.ModuleReplay
import PLZero.Proofs.ModuleValid
import PLZero.Proofs.ScriptScopes
import PLZero.Proofs.SessionCourse
import PLZero.Proofs.StaticLinks
import PLZero.Script.LineMap
import PLZero.Proofs.Derived
import PLZero.Proofs.Printed
import PLZero.Proofs.Reread
import PLZero.Proofs.EntryPoints
import PLZero.Proofs.Segments
import PLZero.Proofs.ScriptNotes
import PLZero.Proofs.Resolution
import PLZero.Proofs.ConstantValues
import PLZero.Proofs.ModuleArithmetic
import PLZero.Proofs.ScriptStatements
import PLZero.Proofs.CodeShape
import PLZero.Proofs.LoopTests
import PLZero.Proofs.Brackets
import PLZero.Proofs.ModuleBrackets
import PLZero.Proofs.ScriptBrackets
import PLZero.Proofs.Activations
import PLZero.Proofs.SavedVariables
import PLZero.Proofs.EarlyStops
import PLZero.Proofs.ProgramShape
import PLZero.Proofs.CallForms
import PLZero.Proofs.Separators
import PLZero.Proofs.SessionStatus
import PLZero.Proofs.SessionProgress
import PLZero.Proofs.LineStops
import PLZero.Proofs.SourceTree
import PLZero.Proofs.ShownBindings
import PLZero.Proofs.TablesInPlace
import PLZero.Proofs.ScopeActions
import PLZero.Proofs.TargetNames
