import ZTask.Lib.Machine
import Mathlib.Data.Int.Notation
import Mathlib.Logic.Function.Basic

/-!
# Channels and their boxes

`lua-debugchannel.c`: a channel is reached through boxes, of which two at most may share it. The
counter of the channel goes down when a box is released, by `debugchannel.release` or by the
finaliser of the box, both of which are `lrelease`; the last release frees the channel and what is
in it.

Channels and boxes are numbered as they come. A second box is made from the raw pointer of the
channel, which may come too late.
-/

namespace ZTask

open Lib

/-! ## States and steps -/

/-- `struct channel`, with the commands from `head` to `tail`. -/
structure DebugChannel where
  ref : ℤ
  commands : List (List UInt8)
deriving DecidableEq, Repr

/-- What is allocated. A channel that has been freed is `none`. -/
structure DebugChannels where
  channel : ℕ → Option DebugChannel
  channels : ℕ
  /-- `cb->c` -/
  box : ℕ → Option ℕ
  boxes : ℕ
  /-- The finaliser of the box has run. -/
  collected : ℕ → Bool
  /-- Keeps the books: the boxes that have been passed to `lrelease`. -/
  released : ℕ → Bool

inductive DebugInput
  /-- `lcreate` -/
  | create
  /-- `lconnect` -/
  | connect (c : ℕ)
  /-- `lread`; whether it waits for a command is left out. -/
  | read (b : ℕ)
  | write (b : ℕ) (s : List UInt8)
  | release (b : ℕ)
  /-- The box is collected. -/
  | collect (b : ℕ)
deriving DecidableEq

inductive DebugOutput
  | box (b : ℕ)
  /-- `luaL_error` -/
  | failed
  | command (s : Option (List UInt8))
  | written
  /-- `lrelease`, and the channel that it has freed. -/
  | released (freed : Option ℕ)
deriving DecidableEq, Repr

inductive DebugFault
  /-- A channel that has been freed is locked, read or written. -/
  | freed
  /-- `NULL` is dereferenced. -/
  | null
  /-- There is no such box, or it has been collected. -/
  | impossible
deriving DecidableEq, Repr

/-! ## The functions -/

namespace DebugChannels

def init : DebugChannels := ⟨fun _ ↦ none, 0, fun _ ↦ none, 0, fun _ ↦ false, fun _ ↦ false⟩

def setChannel (m : DebugChannels) (c : ℕ) (x : Option DebugChannel) : DebugChannels :=
  { m with channel := Function.update m.channel c x }

/-- `lua_newuserdata`, for a box of this channel. -/
def newBox (m : DebugChannels) (c : ℕ) : DebugChannels × DebugOutput :=
  ({ m with box := Function.update m.box m.boxes (some c), boxes := m.boxes + 1 }, .box m.boxes)

/-- `lcreate`: `channel_new` and a box. -/
def create (m : DebugChannels) : DebugChannels × DebugOutput :=
  newBox { m.setChannel m.channels (some ⟨1, []⟩) with channels := m.channels + 1 } m.channels

/-- `lconnect`: `channel_connect` and a box. -/
def connect (m : DebugChannels) (c : ℕ) : Except DebugFault (DebugChannels × DebugOutput) :=
  match m.channel c with
  | none => .error .freed
  | some x =>
    if x.ref = 1 then .ok ((m.setChannel c (some { x with ref := x.ref + 1 })).newBox c)
    else .ok (m, .failed)

/-- The channel of a box. -/
def find (m : DebugChannels) (b : ℕ) : Except DebugFault (ℕ × DebugChannel) :=
  match m.box b with
  | none => .error .null
  | some c =>
    match m.channel c with
    | none => .error .freed
    | some x => .ok (c, x)

/-- `channel_read` -/
def read (m : DebugChannels) (b : ℕ) : Except DebugFault (DebugChannels × DebugOutput) :=
  match m.find b with
  | .error e => .error e
  | .ok (c, x) =>
    match x.commands with
    | [] => .ok (m, .command none)
    | s :: rest => .ok (m.setChannel c (some { x with commands := rest }), .command (some s))

/-- `channel_write` -/
def write (m : DebugChannels) (b : ℕ) (s : List UInt8) :
    Except DebugFault (DebugChannels × DebugOutput) :=
  match m.find b with
  | .error e => .error e
  | .ok (c, x) => .ok (m.setChannel c (some { x with commands := x.commands ++ [s] }), .written)

/-- `lrelease`: `channel_release`, and `cb->c` is cleared if it has freed the channel. -/
def release (m : DebugChannels) (b : ℕ) : Except DebugFault (DebugChannels × DebugOutput) :=
  match m.find b with
  | .error e => .error e
  | .ok (c, x) =>
    let released := Function.update m.released b true
    if x.ref - 1 > 0 then
      .ok ({ m.setChannel c (some { x with ref := x.ref - 1 }) with released := released },
        .released none)
    else
      .ok ({ m.setChannel c none with box := Function.update m.box b none, released := released },
        .released (some c))

/-- The box can be passed to a function. -/
def Has (m : DebugChannels) (b : ℕ) : Prop := b < m.boxes ∧ m.collected b = false

instance decidableHas (m : DebugChannels) (b : ℕ) : Decidable (m.Has b) :=
  inferInstanceAs (Decidable (_ ∧ _))

end DebugChannels

/-! ## The machine -/

/-- The channels. -/
def debugChannels : Machine DebugChannels DebugInput DebugOutput DebugFault := fun m i ↦
  match i with
  | .create => .ok m.create
  | .connect c => if c < m.channels then m.connect c else .error .impossible
  | .read b => if m.Has b then m.read b else .error .impossible
  | .write b s => if m.Has b then m.write b s else .error .impossible
  | .release b => if m.Has b then m.release b else .error .impossible
  | .collect b =>
    if m.Has b then
      match m.release b with
      | .error e => .error e
      | .ok (m, o) => .ok ({ m with collected := Function.update m.collected b true }, o)
    else .error .impossible

end ZTask
