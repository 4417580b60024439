import Hdf5Pure.Utils.Checked

/-!
# MATLAB names

The rules of `src/mat/identifier.rs`, and `normalize_name` (`src/mat/builder.rs`), which resolves a
name in a scope. A text is the list of its characters. The keywords are sorted, so that the binary
search of the source finds those that are listed.
-/

namespace Hdf5Pure.Mat

abbrev Text := List Char

def byteLen (s : Text) : ℕ := (s.map Char.utf8Size).sum

/-- The first `n` bytes of a text, which end with a character. -/
def takeBytes : Text → ℕ → Checked Text
  | _, 0 => .ok []
  | [], _ + 1 => .error ⟨"byte index is out of bounds"⟩
  | ch :: s, n + 1 =>
    if n + 1 < ch.utf8Size then .error ⟨"byte index is not a char boundary"⟩
    else do
      let rest ← takeBytes s (n + 1 - ch.utf8Size)
      .ok (ch :: rest)

def matlabNameMax : ℕ := 2048

def matlabKeywords : List Text :=
  ["break", "case", "catch", "classdef", "continue", "else", "elseif", "end", "events", "for",
    "function", "global", "if", "methods", "otherwise", "parfor", "persistent", "properties",
    "return", "spmd", "switch", "try", "while"].map String.toList

def isKeyword (name : Text) : Bool := name ∈ matlabKeywords

def isWordChar (ch : Char) : Bool := ch.isAlphanum || ch == '_'

def isValidName (name : Text) : Bool :=
  if name = [] ∨ matlabNameMax < byteLen name ∨ isKeyword name then false
  else
    match name with
    | [] => false
    | ch :: chars => ch.isAlpha && chars.all isWordChar

def sanitizeChar (ch : Char) (idx : ℕ) : Text :=
  if (if idx = 0 then ch.isAlpha else isWordChar ch) then [ch]
  else if idx = 0 then ['x', if isWordChar ch then ch else '_']
  else ['_']

def sanitizeName (name : Text) : Checked Text :=
  let out := name.zipIdx.flatMap fun c => sanitizeChar c.1 c.2
  let out := if out = [] then ['x'] else out
  let out := if isKeyword out then out ++ ['_'] else out
  if matlabNameMax < byteLen out then takeBytes out matlabNameMax else .ok out

def maxDedupeAttempts : ℕ := 1000000

def suffixed (base : Text) (suffix : ℕ) : Checked Text :=
  let suffixStr := '_' :: Nat.toDigits 10 suffix
  let maxBaseLen := matlabNameMax - byteLen suffixStr
  if maxBaseLen = 0 then
    .ok ('x' :: suffixStr.drop (byteLen suffixStr - (matlabNameMax - 1)))
  else do
    let front ← if maxBaseLen < byteLen base then takeBytes base maxBaseLen else .ok base
    .ok (front ++ suffixStr)

/-- The loop of `dedupe_name`, with the attempts left. -/
def dedupeLoop (base : Text) (used : Finset Text) : ℕ → ℕ → Checked Text
  | 0, _ =>
    -- the characters of a name stand for themselves in its debug form
    .error ⟨"dedupe_name: exceeded 1000000 attempts for base name \"" ++ String.ofList base ++ "\""⟩
  | attempts + 1, suffix => do
    let candidate ← suffixed base suffix
    if candidate ∉ used then .ok candidate else dedupeLoop base used attempts (suffix + 1)

def dedupeName (candidate : Text) (used : Finset Text) : Checked Text :=
  if candidate ∉ used then .ok candidate
  else dedupeLoop candidate used maxDedupeAttempts 1

inductive InvalidNamePolicy where
  | error
  | sanitize

/-- `MatError::Custom`. -/
inductive MatError where
  | custom (message : Text)

/-- Resolves a name in the scope that has the names `used`, which the result joins. -/
def normalizeName (policy : InvalidNamePolicy) (used : Finset Text) (raw : Text) :
    Checked (Except MatError Text × Finset Text) :=
  match policy with
  | .error =>
    if isValidName raw then do
      let unique ← dedupeName raw used
      .ok (.ok unique, insert unique used)
    else .ok (.error (.custom ("invalid MATLAB name: ".toList ++ raw)), used)
  | .sanitize => do
    let candidate ← sanitizeName raw
    let unique ← dedupeName candidate used
    .ok (.ok unique, insert unique used)

end Hdf5Pure.Mat
