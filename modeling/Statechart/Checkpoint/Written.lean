import Statechart.Binary.Basic
import Statechart.Checkpoint.Basic
import Statechart.Json.Document
import Statechart.Json.Text
import Statechart.Time.Reading

-- The written forms of checkpoints, a JSON text and a sequence of bytes.

namespace Statechart

-- Contexts that can be written down and read back.
class Written (C : Type) where
  toJson : C → Json
  ofDocument? : Document → Option C
  toBytes : C → Binary.Bytes
  reader : Binary.Reader C

def Uuid.ofDocument? (d : Document) : Option Uuid := d.string?.bind parse?

def Timestamp.ofDocument? (d : Document) : Option Timestamp := d.string?.bind parse?

namespace Checkpoint

open Binary

variable {C : Type} [Written C]

def toJson (c : Checkpoint C) : Json :=
  .obj [("version", .int c.version.toNat), ("id", .str c.id.text),
    ("timestamp", .str c.timestamp.text), ("machine_id", .str c.machineId),
    ("configuration", .strings c.configuration),
    ("history", .obj (c.history.entries.map fun e => (e.1, .strings e.2))),
    ("context", Written.toJson c.context), ("done", .bool c.done)]

def fieldNames : List String :=
  ["version", "id", "timestamp", "machine_id", "configuration", "history", "context", "done"]

-- No field may be left out.
def ofDocument? (d : Document) : Option (Checkpoint C) :=
  match d.record? fieldNames with
  | some [some version, some id, some timestamp, some machineId, some configuration, some history,
      some context, some done] => do
    let strings := Document.list? Document.string?
    pure {
      version := .ofNat (← version.natBelow? UInt32.size)
      id := ← Uuid.ofDocument? id
      timestamp := ← Timestamp.ofDocument? timestamp
      machineId := ← machineId.string?
      configuration := ← strings configuration
      history := .ofList (← history.entries? strings)
      context := ← Written.ofDocument? context
      done := ← done.bool? }
  | _ => none

-- Reads a checkpoint without looking at its version.
def parse? (text : String) : Option (Checkpoint C) := (Document.parse? text).bind ofDocument?

def ofText (text : String) : Except CheckpointError (Checkpoint C) :=
  match parse? text with
  | some c => c.checkVersion
  | none => .error .malformed

def text (c : Checkpoint C) : String := c.toJson.text

def prettyText (c : Checkpoint C) : String := c.toJson.prettyText

def toBytes (c : Checkpoint C) : Bytes :=
  writeUInt32 c.version ++ writeBlob c.id.bytes ++ writeString c.timestamp.text ++
    writeString c.machineId ++ writeList writeString c.configuration ++
    writeMap (writeList writeString) c.history ++ Written.toBytes c.context ++ writeBool c.done

def present : Option α → Reader α
  | some a => pure a
  | none => malformed

def reader : Reader (Checkpoint C) := do
  let version ← readUInt32
  let id ← present (Uuid.ofBytes? (← readBlob))
  let timestamp ← present (Timestamp.parse? (← readString))
  let machineId ← readString
  let configuration ← readList readString
  let history ← readMap (readList readString)
  let context ← Written.reader
  let done ← readBool
  pure {
    version := version
    id := id
    timestamp := timestamp
    machineId := machineId
    configuration := configuration
    history := history
    context := context
    done := done }

-- What follows a checkpoint is not looked at.
def ofBytes (bs : Bytes) : Except CheckpointError (Checkpoint C) :=
  match reader bs with
  | some (c, _) => c.checkVersion
  | none => .error .malformed

end Checkpoint

end Statechart
