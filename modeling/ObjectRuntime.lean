import ObjectRuntime.Proofs.Reflection.VariableBinding
import ObjectRuntime.Proofs.TypeTable.Hierarchy
import ObjectRuntime.Object.TypeExpr
import ObjectRuntime.Session.Boundary
import ObjectRuntime.Session.Calls
import ObjectRuntime.Session.Containers
import ObjectRuntime.Session.Reflections
import ObjectRuntime.Session.Tensors
import ObjectRuntime.Text.TypeName
import ObjectRuntime.Proofs.Object.Counting
import ObjectRuntime.Proofs.Reflection.Building
import ObjectRuntime.Proofs.Reflection.Decoding
import ObjectRuntime.Proofs.Reflection.Fields
import ObjectRuntime.Proofs.Reflection.Resolving
import ObjectRuntime.Proofs.Reflection.Asking
import ObjectRuntime.Proofs.Reflection.GraphText
import ObjectRuntime.Proofs.Reflection.RoundTrip
import ObjectRuntime.Proofs.TypeTable.Disturbance
import ObjectRuntime.Proofs.Container.Array
import ObjectRuntime.Proofs.Container.Box
import ObjectRuntime.Proofs.Container.Map
import ObjectRuntime.Proofs.Function.Calls
import ObjectRuntime.Proofs.Function.Usage
import ObjectRuntime.Proofs.Function.Closures
import ObjectRuntime.Proofs.Tensor.Oversized
import ObjectRuntime.Proofs.Tensor.PrefixFree
import ObjectRuntime.Proofs.Text.Utf8
import ObjectRuntime.Proofs.Tensor.Parameters
import ObjectRuntime.Proofs.Boundary.Calling
import ObjectRuntime.Proofs.Container.ValueSemantics
import ObjectRuntime.Proofs.Container.ViewSteps
import ObjectRuntime.Proofs.Reflection.Isomorphism
import ObjectRuntime.Proofs.Reflection.Termination
import ObjectRuntime.Proofs.Reflection.Reloading
import ObjectRuntime.Proofs.Reflection.Symmetry
import ObjectRuntime.Proofs.Function.Boxing
import ObjectRuntime.Proofs.Tensor.Lending
import ObjectRuntime.Proofs.Boundary.Returned
import ObjectRuntime.Proofs.Host.Bracketing
import ObjectRuntime.Proofs.Function.Exactness
import ObjectRuntime.Proofs.Function.Registration
import ObjectRuntime.Proofs.Reflection.Creation
import ObjectRuntime.Proofs.Reflection.Recreation
import ObjectRuntime.Proofs.Tensor.Contiguity
import ObjectRuntime.Proofs.Reflection.FreeVariables
import ObjectRuntime.Proofs.Container.Blame
import ObjectRuntime.Proofs.Text.DataTypes
import ObjectRuntime.Proofs.Module.Searching
import ObjectRuntime.Proofs.Function.MapQueries
import ObjectRuntime.Proofs.Boundary.Devices
import ObjectRuntime.Proofs.Reflection.Watching
