import ShotTiming.Log
import ShotTiming.Number.Decimal
import ShotTiming.Ticks

/-!
# Settings of a compilation

Settings are read from a document key by key. A key that is absent keeps its value; the first key
that cannot be read ends the reading, and what was read before it stays.
-/
namespace ShotTiming

structure Settings where
  /-- Safety margin after the dead time of a wait. -/
  epsilon : Float := 0
  /-- Largest accepted distance from a tick, as a share of the timebase. -/
  tolerance : Float := 0.01
  rounding : Rounding := .nearest
  /-- Whether all times that miss the grid are reported together. -/
  batch : Bool := false
  deriving DecidableEq, Inhabited

/-- A document that has been parsed already. -/
inductive Document
  | null
  | number (x : Float)
  | flag (b : Bool)
  | text (s : String)
  | list
  | table (entries : List (String × Document))

inductive SettingsFault
  | outOfRange (key : String) (value : Float)
  | unreadable (key : String)
  | unknownRounding (code : Nat)
  | notTable
  | unknownRoundingName (name : String)
  | unknownLevelName (name : String)
  | wrongType
  deriving DecidableEq

def SettingsFault.message : SettingsFault → String
  | outOfRange key value => "Invalid " ++ key ++ " value: " ++ Number.places value ++ "."
  | unreadable key => "Invalid " ++ key ++ " value."
  | unknownRounding code => "Unknown rounding " ++ toString code ++ "."
  | notTable => "Shot config must be a map."
  | unknownRoundingName name => "Unknown rounding `" ++ name ++ "` (expect `nearest` or `up`)."
  | unknownLevelName name => "Unknown log_level `" ++ name ++ "`."
  | wrongType => ""

/-- No two ticks are further than this share of the timebase from the time between them. -/
def maxTolerance : Float := 0.5

/-- Accepts a finite time from zero up to a limit. -/
def checkTime (key : String) (limit value : Float) : Except SettingsFault Unit :=
  if !value.isFinite || value < 0 || limit < value then .error (.outOfRange key value) else .ok ()

namespace Settings

def check (s : Settings) : Except SettingsFault Unit := do
  checkTime "epsilon" (1 / 0) s.epsilon
  checkTime "quantisation_tolerance" maxTolerance s.tolerance
  match s.rounding with
  | .nearest | .up => pure ()
  | .other n => throw (.unknownRounding n)

end Settings

namespace Document

/-- The number of a document that holds a time in its range. -/
def time (key : String) (limit : Float) : Document → Except SettingsFault Float
  | number x => do checkTime key limit x; pure x
  | _ => throw (.unreadable key)

def asText : Document → Except SettingsFault String
  | text s => pure s
  | _ => throw .wrongType

def asFlag : Document → Except SettingsFault Bool
  | flag b => pure b
  | _ => throw .wrongType

end Document

/-- What a document sets: the settings, and the threshold of the log. -/
structure Configuration where
  settings : Settings := {}
  threshold : Level := .info
  deriving DecidableEq, Inhabited

namespace Configuration

/-- A change of the configuration that keeps what it did before it failed. -/
abbrev Change := EStateM SettingsFault Configuration

def set (f : Settings → Settings) : Change Unit := modify fun c => { c with settings := f c.settings }

/-- Reads one key of a table, if it is there. -/
def key (entries : List (String × Document)) (name : String) (read : Document → Change Unit) :
    Change Unit :=
  (entries.lookup name).forM read

def readEpsilon (d : Document) : Change Unit := do
  let x ← MonadExcept.ofExcept (d.time "epsilon" (1 / 0))
  set ({ · with epsilon := x })

def readTolerance (d : Document) : Change Unit := do
  let x ← MonadExcept.ofExcept (d.time "quantisation_tolerance" maxTolerance)
  set ({ · with tolerance := x })

def readRounding (d : Document) : Change Unit := do
  let name ← MonadExcept.ofExcept d.asText
  match Rounding.ofName? name with
  | some r => set ({ · with rounding := r })
  | none => throw (.unknownRoundingName name)

def readBatch (d : Document) : Change Unit := do
  let b ← MonadExcept.ofExcept d.asFlag
  set ({ · with batch := b })

def readThreshold (d : Document) : Change Unit := do
  let name ← MonadExcept.ofExcept d.asText
  match Level.ofName? name with
  | some l => modify ({ · with threshold := l })
  | none => throw (.unknownLevelName name)

/-- Reads the settings of a document; an empty one sets nothing. -/
def load : Document → Change Unit
  | .null => pure ()
  | .table entries => do
    key entries "epsilon" readEpsilon
    key entries "quantisation_tolerance" readTolerance
    key entries "rounding" readRounding
    key entries "batch_quantisation_errors" readBatch
    key entries "log_level" readThreshold
  | _ => throw .notTable

end Configuration

end ShotTiming
