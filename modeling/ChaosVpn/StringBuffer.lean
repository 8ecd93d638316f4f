import ChaosVpn.CStrings

/-! `struct string` as its content. Every string of the modelled functions comes
from string_init or string_lazyinit with a positive `growby`, so as long as
memory lasts an append succeeds and only two things of the struct are visible:
whether `s` is NULL, and the bytes up to `length`. -/

namespace ChaosVpn.StringBuffer
open CStrings

structure StructString where
  s : Option Bytes
  deriving DecidableEq

def stringInit : StructString := ⟨some []⟩

def stringLazyinit : StructString := ⟨none⟩

def stringFree (_ : StructString) : StructString := ⟨none⟩

def content (x : StructString) : Bytes := x.s.getD []

def stringLength (x : StructString) : Nat := (content x).length

/-- The `char*` handed to functions that stop at the first NUL byte. -/
def stringGet (x : StructString) : Option Bytes := x.s.map cstr

def stringClear (x : StructString) : StructString := ⟨x.s.map fun _ => []⟩

/-- Appending nothing does not allocate, so a NULL buffer stays NULL. -/
def stringConcatb (x : StructString) (bytes : Bytes) : StructString :=
  if bytes.isEmpty then x else ⟨some (content x ++ bytes)⟩

def stringPutc (x : StructString) (c : UInt8) : StructString := ⟨some (content x ++ [c])⟩

/-- The NUL byte of the text is copied as well, so that there is a buffer afterwards. -/
def stringConcat (x : StructString) (text : Bytes) : StructString := ⟨some (content x ++ text)⟩

/-- The NUL byte is put behind the content and not counted. -/
def stringEnsurez (x : StructString) : StructString := ⟨some (content x)⟩

def stringMove (source : StructString) : StructString × StructString := (⟨none⟩, source)

/-- Two different structs share a buffer only when both have none. -/
def stringEquals (a b : StructString) : Bool :=
  match a.s, b.s with
  | none, none => true
  | some x, some y => x == y
  | _, _ => false

@[simp] theorem content_stringInit : content stringInit = [] := rfl

@[simp] theorem content_stringFree (x : StructString) : content (stringFree x) = [] := rfl

@[simp] theorem content_stringEnsurez (x : StructString) :
    content (stringEnsurez x) = content x := rfl

@[simp] theorem content_stringConcatb (x : StructString) (bytes : Bytes) :
    content (stringConcatb x bytes) = content x ++ bytes := by
  unfold stringConcatb
  split <;> simp_all [content]

@[simp] theorem content_stringPutc (x : StructString) (c : UInt8) :
    content (stringPutc x c) = content x ++ [c] := rfl

@[simp] theorem content_stringConcat (x : StructString) (text : Bytes) :
    content (stringConcat x text) = content x ++ text := rfl

theorem stringEquals_iff {a b : StructString} (ha : a.s.isSome) (hb : b.s.isSome) :
    stringEquals a b = true ↔ content a = content b := by
  obtain ⟨x, hx⟩ := Option.isSome_iff_exists.mp ha
  obtain ⟨y, hy⟩ := Option.isSome_iff_exists.mp hb
  simp [stringEquals, content, hx, hy]

end ChaosVpn.StringBuffer
