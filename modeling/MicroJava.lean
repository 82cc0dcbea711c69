import MicroJava.Main
import MicroJava.Proofs.ArgumentPassing
import MicroJava.Proofs.Capacity
import MicroJava.Proofs.CommandLine.Files
import MicroJava.Proofs.Emission.Decode
import MicroJava.Proofs.EntryPoint
import MicroJava.Proofs.Environments
import MicroJava.Proofs.ExpressionValues
import MicroJava.Proofs.Finality
import MicroJava.Proofs.Grammar.Program
import MicroJava.Proofs.Lexing.Comments
import MicroJava.Proofs.Lexing.Longest
import MicroJava.Proofs.Renaming
import MicroJava.Proofs.Reporting
import MicroJava.Proofs.Simulation.Program
import MicroJava.Proofs.Skipping
import MicroJava.Proofs.SourceOrder
import MicroJava.Proofs.Stepping
import MicroJava.Proofs.Throttling
import MicroJava.Proofs.TypedStack
import MicroJava.Proofs.Types.Order
