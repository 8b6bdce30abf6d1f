import ObjectRuntime.Number.MachineInt
set_option autoImplicit false

/-!
# Devices

A device is a kind of hardware and the number of one unit of it.  On a boundary it travels as a
`RawDevice`, whose kind is any word and whose unit has 32 bits with a sign.
-/

namespace ObjectRuntime

/-- The kinds of hardware on which tensors may live. -/
inductive DeviceKind where
  | cpu | cuda | cudaHost | opencl | vulkan | metal | vpi | rocm | rocmHost | extDev
  deriving DecidableEq, Repr, Inhabited

namespace DeviceKind

/-- All kinds, in the order of their codes. -/
def all : List DeviceKind :=
  [.cpu, .cuda, .cudaHost, .opencl, .vulkan, .metal, .vpi, .rocm, .rocmHost, .extDev]

/-- The code of a kind on a boundary. -/
def code : DeviceKind → UInt32
  | .cpu => 1 | .cuda => 2 | .cudaHost => 3 | .opencl => 4 | .vulkan => 7
  | .metal => 8 | .vpi => 9 | .rocm => 10 | .rocmHost => 11 | .extDev => 12

/-- The kind with a code. -/
def ofCode? (code : UInt32) : Option DeviceKind := all.find? fun k => k.code == code

/-- The name of a kind. -/
def name : DeviceKind → String
  | .cpu => "cpu" | .cuda => "cuda" | .cudaHost => "cuda_host" | .opencl => "opencl"
  | .vulkan => "vulkan" | .metal => "metal" | .vpi => "vpi" | .rocm => "rocm"
  | .rocmHost => "rocm_host" | .extDev => "ext_dev"

/-- The kind with a name; a few kinds have other names beside their own. -/
def ofName? (name : String) : Option DeviceKind :=
  if name = "llvm" ∨ name = "stackvm" then some .cpu
  else if name = "nvptx" then some .cuda
  else if name = "cl" then some .opencl
  else all.find? fun k => k.name == name

end DeviceKind

/-- No device is described by the text. -/
structure UnsupportedDevice where
  text : String
  deriving DecidableEq, Repr

/-- The wording of the error. -/
def UnsupportedDevice.message (e : UnsupportedDevice) : String := "unsupported device: " ++ e.text

/-- One unit of a kind of hardware. -/
structure Device where
  kind : DeviceKind
  unit : MachineInt .usize
  deriving DecidableEq, Repr, Inhabited

/-- A device as it crosses a boundary. -/
structure RawDevice where
  kind : UInt32
  unit : MachineInt .i32
  deriving DecidableEq, Repr, Inhabited

namespace Device

/-- The first unit of the host's own processor. -/
def host : Device := ⟨.cpu, 0⟩

/-- The device is the host's own processor. -/
def isCpu (d : Device) : Bool := d.kind == .cpu

/-- The name of the kind and the unit. -/
def toText (d : Device) : String := d.kind.name ++ ":" ++ toString d.unit

instance : ToString Device := ⟨toText⟩

/-- Reads the name of a kind. -/
def parseKind (s : String) : Except UnsupportedDevice DeviceKind :=
  match DeviceKind.ofName? s with
  | some k => .ok k
  | none => .error ⟨s⟩

/-- Reads a kind, and a unit behind the first colon if there is one. -/
def parse (s : String) : Except UnsupportedDevice Device := do
  let (name, rest) := s.toList.span (· != ':')
  let kind ← parseKind (String.ofList name)
  match rest with
  | [] => .ok ⟨kind, 0⟩
  | _ :: text =>
    match IntKind.usize.parse (String.ofList text) with
    | .ok unit => .ok ⟨kind, unit⟩
    | .error _ => .error ⟨s⟩

/-- The device as it crosses a boundary: the unit keeps its low 32 bits. -/
def toRaw (d : Device) : RawDevice := ⟨d.kind.code, MachineInt.wrap .i32 d.unit.val⟩

/-- The device that crossed a boundary: the unit is extended by its sign. -/
def ofRaw (r : RawDevice) : Except UnsupportedDevice Device :=
  match DeviceKind.ofCode? r.kind with
  | some kind => .ok ⟨kind, MachineInt.wrap .usize r.unit.val⟩
  | none => .error ⟨toString r.kind.toNat⟩

end Device

end ObjectRuntime
