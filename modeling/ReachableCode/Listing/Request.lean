import ReachableCode.Image.Load
import ReachableCode.Listing.Format
import ReachableCode.Search.Exploration
import ReachableCode.X86.Catalogue

/-!
Requests: an image, the places to start from and the name of a format give a listing. Of several
things wrong with a request the first in this order counts: the image, its architecture, the format,
the places.
-/

namespace ReachableCode

/-- Why a request has no listing. -/
inductive RequestError where
  | image (e : LoadError)
  | architecture (a : Architecture)
  | format (name : String)
  | entry (text : String) (cause : Hex.Malformed)
  /-- No place was given, and the image tells none. -/
  | noEntry
  deriving DecidableEq, Repr

namespace RequestError

/-- The start of the wording for an image that is refused. -/
def imageLead : String :=
  "Failed to parse binary: "

def message : RequestError → String
  | image e => imageLead ++ e.toError.message
  | architecture a => "Failed to create decoder: " ++ (Error.unsupportedArchitecture a).message
  | format name => Format.unknownMessage name
  | entry text cause => "Invalid entry address " ++ text ++ ": " ++ cause.message
  | noEntry => "No entry points given and the binary has none"

end RequestError

/-- The target that a text names: an address after `0x` or `0X`, else a label. -/
def Target.parse (text : String) : Except Hex.Malformed Target :=
  match text.toList with
  | '0' :: 'x' :: digits | '0' :: 'X' :: digits => address <$> Hex.parse (String.ofList digits)
  | _ => .ok (label text)

namespace X86

/-- The machine of an architecture, if it is an x86 one. -/
def Machine.ofArchitecture (a : Architecture) : Except Error Machine :=
  match Mode.ofArchitecture? a with
  | some mode => .ok (ofMode mode)
  | none => .error (.unsupportedArchitecture a)

end X86

namespace Request

def targets : List String → Except RequestError (List Target)
  | [] => .ok []
  | text :: rest =>
    match Target.parse text with
    | .error cause => .error (.entry text cause)
    | .ok t => return t :: (← targets rest)

/-- The targets to start from: those given, else the entry point. -/
def start (p : Program) (texts : List String) : Except RequestError (List Target) := do
  match ← targets texts, p.entryPoint with
  | [], some a => return [.address a]
  | [], none => throw .noEntry
  | ts, _ => return ts

/-- What a request comes to before anything is decoded. -/
def plan (p : Program) (texts : List String) (formatName : String) :
    Except RequestError (X86.Machine × Format × List Target) := do
  let machine ← (X86.Machine.ofArchitecture p.architecture).mapError fun _ =>
    .architecture p.architecture
  match Format.ofName? formatName with
  | none => throw (.format formatName)
  | some format => return (machine, format, ← start p texts)

/-- The listing of all code of an image that is reached from the given places. -/
def listing (image : Image) (texts : List String) (formatName : String) :
    Except (Halt RequestError) String := do
  let p ← (Image.load image).mapError fun
    | .fault f => .fault f
    | .error e => .error (.image e)
  let (machine, format, entries) ← (plan p texts formatName).mapError .error
  let x : Explorer := { program := p, decoder := machine.decoder }
  let g ← (x.exploreAll .empty entries).mapError fun i => .fault i.fault
  Halt.ofFault (g.listing p format)

end Request

end ReachableCode
