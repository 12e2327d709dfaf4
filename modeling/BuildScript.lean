import BuildScript.Bindings.Basic
import BuildScript.Bindings.Definition
import BuildScript.Bindings.Expansion
import BuildScript.CommandLine.Notice
import BuildScript.CommandLine.Options
import BuildScript.CommandLine.Override
import BuildScript.CommandLine.Scan
import BuildScript.FileName
import BuildScript.Host.Basic
import BuildScript.Host.FileTree
import BuildScript.Host.Path
import BuildScript.LogicalLine
import BuildScript.Main
import BuildScript.Newline
import BuildScript.Program
import BuildScript.Rule.Automatic
import BuildScript.Rule.Basic
import BuildScript.RuleFile.Error
import BuildScript.RuleFile.Reader
import BuildScript.RuleSet.Basic
import BuildScript.RuleSet.Cycle
import BuildScript.RuleSet.Inference
import BuildScript.Script.Basic
import BuildScript.Script.OfRules
import BuildScript.Statement
import BuildScript.Text.Basic
import BuildScript.Text.Blank
import BuildScript.Text.Line
import BuildScript.Text.Utf8
import BuildScript.Proofs.RuleLookup
import BuildScript.Proofs.Dependency
import BuildScript.Proofs.Inference
import BuildScript.Proofs.Making
import BuildScript.Proofs.OneLine
import BuildScript.Proofs.ScriptReading
import BuildScript.Proofs.ScriptMeaning
import BuildScript.Proofs.HandedLines
import BuildScript.Proofs.Ownership
import BuildScript.Proofs.ReadTexts
import BuildScript.Proofs.CallTargets
import BuildScript.Proofs.InferredRules
import BuildScript.Proofs.DollarSigns
import BuildScript.Proofs.HeaderNames
import BuildScript.Proofs.Writing
import BuildScript.Proofs.Indentation
import BuildScript.Proofs.DroppedLines
import BuildScript.Proofs.DefinitionLines
import BuildScript.Proofs.Collection
import BuildScript.Proofs.HiddenDefinitions
import BuildScript.Proofs.LineEnds
import BuildScript.Proofs.History
import BuildScript.Proofs.InvisibleLines
import BuildScript.Proofs.FilePlaces
import BuildScript.Proofs.AllOrNothing
import BuildScript.Proofs.ReportedCycles
import BuildScript.Proofs.InferenceOrder
import BuildScript.Proofs.LentRecipes
import BuildScript.Proofs.ContinuedLines
import BuildScript.Proofs.AssignedValues
import BuildScript.Proofs.CompleteLineEnds
import BuildScript.Proofs.InferredCycles
import BuildScript.Proofs.ErrorPlaces
import BuildScript.Proofs.EscapedSigns
import BuildScript.Proofs.ExpandedDefinitions
import BuildScript.Proofs.SuffixArithmetic
