import TensorCompiler.Compile
import TensorCompiler.Graph.Run
import TensorCompiler.Proofs.Liveness
import TensorCompiler.Proofs.SelectMeaning
import TensorCompiler.Scalar.Single
import TensorCompiler.Template.Parse
import TensorCompiler.Proofs.Inference
import TensorCompiler.Proofs.Emission
import TensorCompiler.Proofs.Movement
import TensorCompiler.Proofs.MovementKernel
import TensorCompiler.Proofs.SignedWords
import TensorCompiler.Proofs.AxisClasses
import TensorCompiler.Proofs.FixedPoint
import TensorCompiler.Proofs.Overflow
import TensorCompiler.Proofs.Bounds
import TensorCompiler.Proofs.Subgraphs
import TensorCompiler.Proofs.TextureAddressing
import TensorCompiler.Proofs.Computability
import TensorCompiler.Proofs.Additions
import TensorCompiler.Proofs.Agreement
import TensorCompiler.Proofs.BroadcastInference
import TensorCompiler.Proofs.OperatorValues
import TensorCompiler.Proofs.Unification
import TensorCompiler.Proofs.Idempotence
import TensorCompiler.Proofs.Independence
import TensorCompiler.Proofs.RuntimeMarks
import TensorCompiler.Proofs.RequestTexts
import TensorCompiler.Proofs.TextureOverrides
import TensorCompiler.Proofs.Calculations
import TensorCompiler.Proofs.Coverage
import TensorCompiler.Proofs.TemplateGrammar
import TensorCompiler.Proofs.FreeSymbols
