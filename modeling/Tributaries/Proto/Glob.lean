import Mathlib

/-! # The glob nesting bound

  Alternation braces nest, and the matcher's parser recurses on them.  A flat
  scan over the pattern's bytes stands in for the parse and refuses what it
  finds too deep.
-/

namespace Glob

def MAX_GLOB_LEN : Nat := 1024

def MAX_GLOB_NESTING : Nat := 8

def OVER_LENGTH_PREVIEW_BYTES : Nat := 64

/-! ### The flat scan -/

/-- A pattern's UTF-8 text. -/
def bytes (pattern : List Char) : List UInt8 := pattern.flatMap String.utf8EncodeChar

def over_nested_from (depth : Nat) (escaped : Bool) : List UInt8 → Option Nat
  | [] => none
  | byte :: rest =>
    if escaped then over_nested_from depth false rest
    else if byte = 0x5C then over_nested_from depth true rest
    else if byte = 0x7B then
      if MAX_GLOB_NESTING < depth + 1 then some (depth + 1)
      else over_nested_from (depth + 1) false rest
    else if byte = 0x7D then over_nested_from (depth - 1) false rest
    else over_nested_from depth false rest

/-- The nesting the pattern reaches, if that is more than the bound. -/
def over_nested (pattern : List Char) : Option Nat := over_nested_from 0 false (bytes pattern)

/-! ### The constructor -/

structure GlobError where
  pattern : List Char
  message : String
  deriving DecidableEq

/-- The matcher and the normalization, which are other packages' code. -/
structure Matcher (G S : Type) where
  nfc : List Char → List Char
  build : List Char → Except String G
  build_set : G → Except String S

/-- One pattern's compiled form. -/
structure Compiled (G S : Type) where
  source : List Char
  glob : G
  set : S

/-- The longest run of whole characters at the front that fits in so many bytes. -/
def preview : Nat → List Char → List Char
  | _, [] => []
  | room, c :: cs => if c.utf8Size ≤ room then c :: preview (room - c.utf8Size) cs else []

/-- `Glob::new`. -/
def new {G S : Type} (m : Matcher G S) (pattern : List Char) : Except GlobError (Compiled G S) :=
  let refuse (message : String) : GlobError := { pattern, message }
  let len := (bytes pattern).length
  if MAX_GLOB_LEN < len then
    .error
      { pattern := preview OVER_LENGTH_PREVIEW_BYTES pattern
        message := s!"the pattern is {len} bytes, over the {MAX_GLOB_LEN}-byte limit" }
  else
    match over_nested pattern with
    | some depth =>
      .error (refuse
        s!"alternations nest at least {depth} deep, over the limit of {MAX_GLOB_NESTING}")
    | none => do
      let glob ← (m.build (m.nfc pattern)).mapError refuse
      let set ← (m.build_set glob).mapError refuse
      return { source := pattern, glob, set }

/-! ### How the matcher reads a pattern -/

def backslash : Char := Char.ofNat 0x5C
def opening : Char := Char.ofNat 0x7B
def closing : Char := Char.ofNat 0x7D

/-- Where a character stands.  A class's first member may be a closing bracket,
    also behind its negation. -/
inductive Place where
  | ground
  | escaped
  | opened
  | negated
  | members
  deriving DecidableEq

def Place.next : Place → Char → Place
  | .ground, c => if c = backslash then .escaped else if c = '[' then .opened else .ground
  | .escaped, _ => .ground
  | .opened, c => if c = '!' ∨ c = '^' then .negated else .members
  | .negated, _ => .members
  | .members, c => if c = ']' then .ground else .members

/-- The characters that stand for themselves: neither escaped nor in a class. -/
def outside : Place → List Char → List Char
  | _, [] => []
  | .ground, c :: cs => c :: outside (Place.ground.next c) cs
  | p, c :: cs => outside (p.next c) cs

/-- The characters the matcher's structure is made of, with a class's negations. -/
def structural (c : Char) : Bool :=
  c = backslash || c = opening || c = closing || c = '[' || c = ']' || c = '!' || c = '^'

/-- A pattern with each run of other characters as one. -/
def outline : List Char → List Char
  | [] => []
  | c :: cs =>
    if structural c then c :: outline cs
    else
      match outline cs with
      | [] => [Char.ofNat 0]
      | x :: xs => if structural x then Char.ofNat 0 :: x :: xs else x :: xs

/-- Where the matcher stands behind a character that is not structural. -/
def Place.pass : Place → Place
  | .ground => .ground
  | .escaped => .ground
  | .opened => .members
  | .negated => .members
  | .members => .members

def Place.in_class : Place → Bool
  | .ground | .escaped => false
  | .opened | .negated | .members => true

/-- The members of character classes that the scan reads.  It takes a backslash to
    hide the next character there as well. -/
def members : Place → Bool → List Char → List Char
  | _, _, [] => []
  | p, escaped, c :: cs =>
    let rest := members (p.next c) (!escaped && c = backslash) cs
    if p.in_class && !escaped then c :: rest else rest

end Glob
