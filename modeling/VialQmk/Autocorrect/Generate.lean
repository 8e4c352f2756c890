import VialQmk.Lib.Trie
import Mathlib.Data.List.Infix
import Mathlib.Data.List.Sort

/-!
# Autocorrect.Generate

The generator of the autocorrection table (`autocorrect_data.py`): the dictionary, its trie of reversed typos, and
the bytes of the trie. A Python error, a failed assertion and an exit are `none`.

The lines come as `parse_file_lines` yields them, a typo and its correction each.
-/

namespace VialQmk
namespace Autocorrect

open Lib

def KC_A : Nat := 4

def KC_SPC : Nat := 0x2c

def KC_QUOT : Nat := 0x34

def quote : Char := Char.ofNat 39

def isTypoChar (c : Char) : Bool := c = quote || c = ':' || ('a' ≤ c && c ≤ 'z')

/-- `TYPO_CHARS[c]`, for the characters that `parse_file` lets through. -/
def typoCode (c : Char) : Nat :=
  if c = quote then KC_QUOT else if c = ':' then KC_SPC else c.toNat + KC_A - 'a'.toNat

structure Autocorrection where
  typo : List Char
  correction : List Char
  deriving DecidableEq

def parseLines : List Autocorrection → List Autocorrection → Option (List Autocorrection)
  | autocorrections, [] => some autocorrections
  | autocorrections, line :: lines =>
    if line.typo ∈ autocorrections.map Autocorrection.typo then
      parseLines autocorrections lines
    else if ¬line.typo.all isTypoChar then
      none
    else if ∃ other ∈ autocorrections, line.typo <:+: other.typo ∨ other.typo <:+: line.typo then
      none
    else if 127 < line.typo.length then
      none
    else
      parseLines (autocorrections ++ [line]) lines

def parseFile (lines : List Autocorrection) : Option (List Autocorrection) := parseLines [] lines

def makeTrie (autocorrections : List Autocorrection) : Trie Char Autocorrection :=
  autocorrections.foldl (fun trie e => trie.insert e.typo.reverse e) .empty

def strip (typo : List Char) : List Char := ((typo.dropWhile (· = ':')).reverse.dropWhile (· = ':')).reverse

def commonPrefix : List Char → List Char → Nat
  | a :: typo, b :: correction => if a = b then commonPrefix typo correction + 1 else 0
  | _, _ => 0

def wordBoundaryEnding (typo : List Char) : Bool := typo.getLast? = some ':'

def backspaces (e : Autocorrection) : Int :=
  (strip e.typo).length - commonPrefix (strip e.typo) e.correction - 1 + if wordBoundaryEnding e.typo then 1 else 0

def changes (e : Autocorrection) : List Char := e.correction.drop (commonPrefix (strip e.typo) e.correction)

def leafData (e : Autocorrection) : Option (List Nat) :=
  -- `typo[-1]` of an empty typo is an error, and so is a correction that is not ASCII.
  if e.typo ≠ [] ∧ 0 ≤ backspaces e ∧ backspaces e ≤ 63 ∧ (changes e).all (fun c => c.toNat < 128) then
    some (((backspaces e).toNat + 128) :: (changes e).map Char.toNat ++ [0])
  else
    none

/-- An entry of the table; the links are indices of entries. -/
structure TableEntry where
  chars : List Char
  data : List Nat
  links : List Nat

def chain : Nat → Trie Char Autocorrection → List Char → List Char × Trie Char Autocorrection
  | n + 1, .node none [(c, t)], chars => chain n t (chars ++ [c])
  | _, t, chars => (chars, t)

/-- One traversal after the other, from a number of entries on, and where each has its entry. -/
def traverseAll {τ : Type} (traverse : τ → Nat → Option (List TableEntry)) :
    List τ → Nat → Option (List Nat × List TableEntry)
  | [], _ => some ([], [])
  | t :: ts, base => do
    let table ← traverse t base
    let (links, rest) ← traverseAll traverse ts (base + table.length)
    some (base :: links, table ++ rest)

def sortedLetters (t : Trie Char Autocorrection) : List Char := t.letters.insertionSort (· ≤ ·)

/-- What `traverse` appends to a table of so many entries. The first number bounds the depth. -/
def traverse : Nat → Trie Char Autocorrection → Nat → Option (List TableEntry)
  | 0, _, _ => none
  | _ + 1, .node (some e) _, _ => do
    let data ← leafData e
    some [⟨[], data, []⟩]
  | _ + 1, .node none [], _ => none
  | n + 1, .node none [(c, t)], base => do
    let (chars, t') := chain n t [c]
    let table ← traverse n t' (base + 1)
    some (⟨chars, [], [base + 1]⟩ :: table)
  | n + 1, .node none children, base => do
    let chars := sortedLetters (.node none children)
    let (links, table) ← traverseAll (fun c base => (Trie.childOf c children).bind (traverse n · base)) chars (base + 1)
    some (⟨chars, [], links⟩ :: table)

def encodeLink (byteOffset : Nat) : List Nat := [byteOffset &&& 255, byteOffset >>> 8]

/-- The loop over the letters of a branch, with the bytes so far. -/
def serializeBranch (byteOffset : Nat → Nat) : List Nat → List (Char × Nat) → List Nat
  | data, [] => data ++ [0]
  | data, (c, link) :: links =>
    serializeBranch byteOffset
      (data ++ [typoCode c ||| if data = [] then 64 else 0] ++ encodeLink (byteOffset link)) links

def serialize (byteOffset : Nat → Nat) (e : TableEntry) : List Nat :=
  match e.links with
  | [] => e.data
  | [_] => e.chars.map typoCode ++ [0]
  | links => serializeBranch byteOffset [] (e.chars.zip links)

/-- Where an entry starts. The entries have their size before any of them has an offset. -/
def byteOffset (table : List TableEntry) (index : Nat) : Nat :=
  ((table.take index).flatMap (serialize fun _ => 0)).length

def serializeTrie (trie : Trie Char Autocorrection) : Option (List Nat) := do
  -- A typo has at most 127 letters, and so the recursion ends.
  let table ← traverse 128 trie 0
  if byteOffset table table.length ≤ 0xffff then
    some (table.flatMap (serialize (byteOffset table)))
  else
    none

/-- What the generated header defines. `DICTIONARY_SIZE` is the length of the data. -/
structure AutocorrectData where
  minLength : Nat
  maxLength : Nat
  data : List Nat
  deriving DecidableEq

def generateAutocorrectData (lines : List Autocorrection) : Option AutocorrectData := do
  let autocorrections ← parseFile lines
  let data ← serializeTrie (makeTrie autocorrections)
  let minLength ← (autocorrections.map fun e => e.typo.length).min?
  let maxLength ← (autocorrections.map fun e => e.typo.length).max?
  if ∀ b ∈ data, b ≤ 255 then some ⟨minLength, maxLength, data⟩ else none

end Autocorrect
end VialQmk
