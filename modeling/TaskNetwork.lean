import TaskNetwork.Main
import TaskNetwork.Proofs.PatternMeaning
import TaskNetwork.Proofs.PatternSets
import TaskNetwork.Proofs.CheckSteps
import TaskNetwork.Proofs.Coverage
import TaskNetwork.Proofs.Guards
import TaskNetwork.Proofs.Insertion
import TaskNetwork.Proofs.Necessity
import TaskNetwork.Proofs.Solvability
import TaskNetwork.Proofs.Chains
import TaskNetwork.Proofs.Cutting
import TaskNetwork.Proofs.Groundings
import TaskNetwork.Proofs.Runs
import TaskNetwork.Proofs.RecordEquations
import TaskNetwork.Proofs.SecondInference
import TaskNetwork.Proofs.RegularizedSweeps
import TaskNetwork.Proofs.SlotBounds
import TaskNetwork.Proofs.CascadeShapes
import TaskNetwork.Proofs.RegularizedChecks
import TaskNetwork.Proofs.Reordering
import TaskNetwork.Proofs.InjectedChecks
import TaskNetwork.Proofs.RecursionBelow
import TaskNetwork.Proofs.InjectedSteps
import TaskNetwork.Proofs.WalkOrder
import TaskNetwork.Proofs.RefinedChains
import TaskNetwork.Proofs.RegularizedNames
import TaskNetwork.Proofs.ReusedChecks
import TaskNetwork.Proofs.SharedChecks
import TaskNetwork.Proofs.Redundancy
import TaskNetwork.Proofs.RecordMeaning
import TaskNetwork.Proofs.NormalForms
import TaskNetwork.Proofs.Balances
import TaskNetwork.Proofs.RaisedSets
import TaskNetwork.Proofs.Lookups
import TaskNetwork.Proofs.DomainFormat
import TaskNetwork.Proofs.StepOrder
import TaskNetwork.Proofs.FirstSteps
import TaskNetwork.Proofs.FreshNames
import TaskNetwork.Proofs.SettingsFormat
import TaskNetwork.Proofs.PlainSweeps
