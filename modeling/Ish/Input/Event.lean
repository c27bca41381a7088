/-!
# Events — keys and pastes

The types `Key`, `Modifiers`, `KeyEvent` and `InputEvent` of `src/input.rs`.
-/

namespace Ish.Input

inductive Key where
  | Char (c : Char)
  | Up
  | Down
  | Left
  | Right
  | Home
  | End
  | Tab
  | Backspace
  | Delete
  | Enter
  | Escape
  deriving DecidableEq, Repr

structure Modifiers where
  ctrl : Bool
  alt : Bool
  shift : Bool
  deriving DecidableEq, Repr

def Modifiers.NONE : Modifiers := { ctrl := false, alt := false, shift := false }

structure KeyEvent where
  key : Key
  mods : Modifiers
  deriving DecidableEq, Repr

namespace KeyEvent

def ofKey (key : Key) : KeyEvent := { key, mods := Modifiers.NONE }

def char (c : Char) : KeyEvent := ofKey (.Char c)

def ctrl (c : Char) : KeyEvent :=
  { key := .Char c, mods := { Modifiers.NONE with ctrl := true } }

def alt (c : Char) : KeyEvent :=
  { key := .Char c, mods := { Modifiers.NONE with alt := true } }

end KeyEvent

inductive InputEvent where
  | Key (key : KeyEvent)
  | Signal (signal : Int)
  | Paste (text : List Char)
  | PasteRejected
  deriving DecidableEq, Repr

end Ish.Input
