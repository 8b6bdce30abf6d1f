import ObjectRuntime.DataType
import ObjectRuntime.Device
import ObjectRuntime.Text.Base64
import ObjectRuntime.Text.Json.Defect
set_option autoImplicit false

/-!
# Errors and panics

`Error` lists every cause for which an operation of the runtime fails, and `Error.message` holds the
wording of each.  A `Panic` is a broken promise of the caller rather than an answer: it ends the
operation and is turned into an error only where a function is called from outside.  `Fault` joins
the two.
-/

namespace ObjectRuntime

/-- A list of numbers between brackets. -/
def showInts (ns : List Int) : String :=
  "[" ++ String.intercalate ", " (ns.map toString) ++ "]"

/-- Why tensor memory cannot be used as asked. -/
inductive TensorError where
  | elementType (expected actual : DataType)
  | unsupportedDevice (device : String)
  | notContiguous
  | notAligned (alignment : Nat)
  | sizeMismatch (expected actual : Nat)
  | negativeDimension (dim : Int)
  | unsupportedVersion (major minor : Nat)
  | badShape
  deriving DecidableEq, Repr

/-- The wording of the cause. -/
def TensorError.message : TensorError → String
  | .elementType expected actual => s!"Expected type `{expected}` but found `{actual}`"
  | .unsupportedDevice device =>
    s!"NDArray on device `{device}` is not supported, only cpu memory is managed here"
  | .notContiguous => "DLManagedTensor must be contiguous."
  | .notAligned alignment =>
    s!"Data in DLManagedTensor is not aligned as required ({alignment} bytes)"
  | .sizeMismatch expected actual =>
    s!"Cannot copy {actual} bytes into an array of {expected} bytes"
  | .negativeDimension dim => s!"Negative dimension {dim} in shape"
  | .unsupportedVersion major minor => s!"Unsupported DLPack version {major}.{minor}"
  | .badShape => "a shape error occurred in the Rust ndarray library"

/-- Why bytes are no parameter blob. -/
inductive BlobDefect where
  | badTag (position : Nat)
  | shortInteger (position : Nat)
  | leftover (position : Nat)
  | shortData
  | nameNotText (position : Nat)
  | foreignDevice (kind : Nat)
  | dataSize (expected : Nat) (shape : List Int) (actual : Nat)
  | countMismatch (names tensors : Nat)
  deriving DecidableEq, Repr

/-- The wording of the cause. -/
def BlobDefect.message : BlobDefect → String
  | .badTag position => s!"Tag at byte {position}"
  | .shortInteger position => s!"End of file at byte {position}"
  | .leftover position => s!"End of file at byte {position}"
  | .shortData => "unexpected end of input"
  | .nameNotText position => s!"Map on Result at byte {position}"
  | .foreignDevice kind => s!"tensor saved from device type {kind}"
  | .dataSize expected shape actual =>
    let dims := showInts shape
    s!"expected {expected} data bytes for shape {dims}, found {actual}"
  | .countMismatch names tensors => s!"{names} names but {tensors} tensors"

/-- Why a graph of nodes cannot be saved, or does not describe an object. -/
inductive GraphDefect where
  | rootOutOfRange (root : Nat)
  | indexOutOfRange (index : Nat)
  | cycle (index : Nat)
  | missingText (index : Nat) (field : String)
  | keyCount (index keys values : Nat)
  | oddEntries (index : Nat)
  | badShape (text : String)
  | badIndex (text : String)
  | unsavable (key typeKey holding : String)
  deriving DecidableEq, Repr

/-- The wording of the cause. -/
def GraphDefect.message : GraphDefect → String
  | .rootOutOfRange root => s!"root {root} out of range"
  | .indexOutOfRange index => s!"node index {index} out of range"
  | .cycle index => s!"node {index} refers to itself"
  | .missingText index field => s!"node {index} has no `{field}`"
  | .keyCount index keys values => s!"map node {index} has {keys} keys and {values} values"
  | .oddEntries index => s!"map node {index} has an odd number of entries"
  | .badShape text => s!"invalid shape `{text}`"
  | .badIndex text => s!"invalid node index `{text}`"
  | .unsavable key typeKey holding =>
    s!"cannot save attribute `{key}` of `{typeKey}` holding {holding}"

/-- Why an operation failed. -/
inductive Error where
  | typeMismatch (expected actual : String)
  | functionNotSet
  | nullPointer
  | embeddedNul
  | notUtf8
  | nullHandle (name : String)
  | tensor (cause : TensorError)
  | dataType (cause : DataType.ParseError)
  | device (cause : UnsupportedDevice)
  | callFailed (text : String)
  | panicked (text : String)
  | argCount (function signature : String) (expected actual : Nat)
  | argConversion (function signature : String) (index : Nat) (cause : Error)
  | functionExists (name : String)
  | functionMissing (name : String)
  | typeKeyMissing (key : String)
  | typeIndexMissing (index : Nat)
  | typeIndexTaken (index : Nat) (existing requested : String)
  | typeSlotsExhausted (key : String)
  | indexOutOfBounds (container : String) (index : Int) (size : Nat)
  | keyMissing (shown : String)
  | outOfRange (value target : String)
  | unknownTypeCode (code : Int)
  | attrMissing (typeKey key : String)
  | attrUnknown (typeKey key : String)
  | attrConversion (typeKey key : String) (cause : Error)
  | notReflectable (typeKey : String)
  | graphFormat (cause : GraphDefect)
  | graphText (defect : Json.Defect)
  | base64Text (cause : Base64.Defect)
  | blobFormat (cause : BlobDefect)
  | hostErrorSet
  | hostSymbolUnknown (name : String)
  | hostSymbolTaken (name : String)
  | raw (text : String)
  deriving Repr

/-- The wording of the cause. -/
def Error.message : Error → String
  | .typeMismatch expected actual => s!"Expected type `{expected}` but found `{actual}`"
  | .functionNotSet => "Function was not set in `to_boxed_fn::Builder`"
  | .nullPointer => "raw pointer passed across boundary was null"
  | .embeddedNul => "failed to convert String into CString due to embedded nul character"
  | .notUtf8 => "string passed across boundary is not valid UTF-8"
  | .nullHandle name => s!"Handle `{name}` is null."
  | .tensor cause => cause.message
  | .dataType cause => cause.message
  | .device cause => cause.message
  | .callFailed text => text
  | .panicked text => s!"a panic occurred while executing a Rust packed function: {text}"
  | .argCount function signature expected actual =>
    s!"Function {function}{signature} expects {expected} arguments, but {actual} were provided."
  | .argConversion function signature index cause =>
    let source := cause.message
    s!"In function {function}{signature}: error while converting argument {index}: {source}"
  | .functionExists name => s!"Global Function `{name}` is already registered"
  | .functionMissing name => s!"Global Function `{name}` is not registered"
  | .typeKeyMissing key =>
    s!"Cannot find type `{key}`. Did you forget to register the node by TVM_REGISTER_NODE_TYPE?"
  | .typeIndexMissing index => s!"Unknown type index {index}"
  | .typeIndexTaken index existing requested =>
    s!"Type `{requested}` cannot claim static type index {index}, it is taken by `{existing}`"
  | .typeSlotsExhausted key => s!"Reach maximum number of sub-classes for `{key}`"
  | .indexOutOfBounds container index size =>
    s!"Index {index} out of bounds for {container} of size {size}"
  | .keyMissing shown => s!"Key `{shown}` does not exist"
  | .outOfRange value target => s!"Value {value} is out of range for `{target}`"
  | .unknownTypeCode code => s!"Unknown type code {code}"
  | .attrMissing typeKey key => s!"`{typeKey}` does not have attribute `{key}`"
  | .attrUnknown typeKey key => s!"`{typeKey}` does not accept attribute `{key}`"
  | .attrConversion typeKey key cause =>
    let source := cause.message
    s!"Failed to read attribute `{key}` of `{typeKey}`: {source}"
  | .notReflectable typeKey => s!"Type `{typeKey}` does not support reflection"
  | .graphFormat cause => "Invalid JSON graph: " ++ cause.message
  | .graphText defect => defect.message
  | .base64Text cause => cause.message
  | .blobFormat cause => "Invalid parameter blob: " ++ cause.message
  | .hostErrorSet => "The host environment has already set an error"
  | .hostSymbolUnknown name => s!"Unknown environment symbol `{name}`"
  | .hostSymbolTaken name => s!"Duplicated environment symbol `{name}`"
  | .raw text => text

/-- An exact operation on machine integers whose result has no place in its type. -/
inductive CheckedOp where
  | add | sub | mul
  deriving DecidableEq, Repr

/-- Why an operation was abandoned. -/
inductive Panic where
  | overflow (op : CheckedOp)
  | nullDereference (reference : String)
  | unsignedTooLarge (n : Int)
  | elementType (cause : Error)
  | entryType (cause : Error)
  | typeRegistration (key : String) (cause : Error)
  | slotBelowParent
  | slotBeyondTable (size index : Nat)
  | unavailable
  | stackExhausted
  | raised (text : String)
  deriving Repr

/-- The wording of the cause. -/
def Panic.message : Panic → String
  | .overflow .add => "attempt to add with overflow"
  | .overflow .sub => "attempt to subtract with overflow"
  | .overflow .mul => "attempt to multiply with overflow"
  | .nullDereference reference => s!"attempted to dereference a null `{reference}`"
  | .unsignedTooLarge n => s!"value {n} does not fit into a signed 64-bit integer"
  | .elementType cause => "array element does not match its declared type: " ++ cause.message
  | .entryType cause => "map entry does not match its declared type: " ++ cause.message
  | .typeRegistration key cause =>
    let source := cause.message
    s!"failed to register object type `{key}`: {source}"
  | .slotBelowParent => "assertion failed: allocated_index > parent_index"
  | .slotBeyondTable size index =>
    s!"index out of bounds: the len is {size} but the index is {index}"
  | .unavailable => "Once instance has previously been poisoned"
  | .stackExhausted => "stack overflow"
  | .raised text => text

/-- How an operation ends without a result. -/
inductive Fault where
  | error (cause : Error)
  | panic (cause : Panic)
  deriving Repr

/-- The wording of the cause. -/
def Fault.message : Fault → String
  | .error cause => cause.message
  | .panic cause => cause.message

/-- The error that stands for the fault where functions are called from outside. -/
def Fault.toError : Fault → Error
  | .error cause => cause
  | .panic cause => .panicked cause.message

/-- Exact arithmetic in the range of a machine type. -/
def checkedOp (k : IntKind) (op : CheckedOp) (a b : Int) : Except Fault Int :=
  let n := match op with
    | .add => a + b
    | .sub => a - b
    | .mul => a * b
  if k.Fits n then .ok n else .error (.panic (.overflow op))

end ObjectRuntime
