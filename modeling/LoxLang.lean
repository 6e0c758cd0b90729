import LoxLang.Main
import LoxLang.Proofs.Evaluation.Stability
import LoxLang.Proofs.Scopes.Restoration
import LoxLang.Proofs.Evaluation.Values
import LoxLang.Proofs.Evaluation.Bounds
import LoxLang.Proofs.Evaluation.Lockstep
import LoxLang.Proofs.Evaluation.Isolation
import LoxLang.Proofs.Syntax.Grammar
import LoxLang.Proofs.Syntax.Soundness
import LoxLang.Proofs.Syntax.Completeness
import LoxLang.Proofs.Syntax.Recognition
import LoxLang.Proofs.Semantics.Rules
import LoxLang.Proofs.Syntax.WellFormed
import LoxLang.Proofs.Evaluation.Reachability
import LoxLang.Proofs.Semantics.Operations
import LoxLang.Proofs.Semantics.Soundness
import LoxLang.Proofs.Semantics.Completeness
import LoxLang.Proofs.Semantics.Refinement
import LoxLang.Proofs.Syntax.Progress
import LoxLang.Proofs.Syntax.Bounds
import LoxLang.Proofs.Syntax.Termination
import LoxLang.Proofs.Syntax.Ends
import LoxLang.Proofs.Syntax.MissingSemicolon
import LoxLang.Proofs.Evaluation.Recursion
import LoxLang.Proofs.Sessions.Independence
import LoxLang.Proofs.Lexemes.Rules
import LoxLang.Proofs.Lexemes.Cutting
import LoxLang.Proofs.Sessions.Records
import LoxLang.Proofs.Lexemes.Scanning
import LoxLang.Proofs.Lexemes.Concatenation
import LoxLang.Proofs.Syntax.Shift
import LoxLang.Proofs.Syntax.Concatenation
import LoxLang.Proofs.Sessions.Shell
import LoxLang.Proofs.Sessions.Outcome
import LoxLang.Proofs.Scopes.Linked
import LoxLang.Proofs.Scopes.SameFrames
import LoxLang.Proofs.Scopes.Matching
import LoxLang.Proofs.Sessions.Reporting
import LoxLang.Proofs.Evaluation.Checked
import LoxLang.Proofs.Syntax.Tokens
import LoxLang.Proofs.Evaluation.Blame
import LoxLang.Proofs.Sessions.Places
import LoxLang.Proofs.Sessions.History
import LoxLang.Proofs.Sessions.Nesting
import LoxLang.Proofs.Scopes.Names
import LoxLang.Proofs.Sessions.Typing
import LoxLang.Proofs.Syntax.Semicolons
import LoxLang.Proofs.Syntax.Confinement
import LoxLang.Proofs.Scopes.EmptyFrames
import LoxLang.Proofs.Semantics.ForLoops
import LoxLang.Proofs.Semantics.LoopRules
import LoxLang.Proofs.Evaluation.ValueMaps
import LoxLang.Proofs.Semantics.Groupings
import LoxLang.Proofs.Evaluation.Returns
import LoxLang.Proofs.Sessions.Returns
import LoxLang.Proofs.Lexemes.Lines
import LoxLang.Proofs.Lexemes.Layout
import LoxLang.Proofs.Scopes.Updates
import LoxLang.Proofs.Evaluation.Moments
import LoxLang.Proofs.Evaluation.Chronicle
import LoxLang.Proofs.Evaluation.Identity
import LoxLang.Proofs.Syntax.Replacement
import LoxLang.Proofs.Syntax.Order
import LoxLang.Proofs.Syntax.Calls
import LoxLang.Proofs.Sessions.Completion
import LoxLang.Proofs.Syntax.Brackets
import LoxLang.Proofs.Number.Doubles
import LoxLang.Proofs.Number.Rounding
import LoxLang.Proofs.Number.Nearest
import LoxLang.Proofs.Number.Texts
import LoxLang.Proofs.Number.Fewest
import LoxLang.Proofs.Number.Exact
import LoxLang.Proofs.Number.Places
import LoxLang.Proofs.Number.Numerals
import LoxLang.Proofs.Outline.Atoms
import LoxLang.Proofs.Outline.Parts
import LoxLang.Proofs.Outline.Genuine
import LoxLang.Proofs.Outline.Readability
import LoxLang.Proofs.Outline.Indentation
import LoxLang.Proofs.Outline.Rescanning
