import RebuildTheWheel.Data.Ascii

namespace RebuildTheWheel.CJson

open RebuildTheWheel.Data
open RebuildTheWheel.Data.Ascii

/-! `cJSON_Minify`, which rewrites a text where it stands. -/

/-- Why a run has no result. -/
inductive Minify.Fault where
  /-- A byte outside the buffer is read or written. -/
  | outside
  /-- The bound on the rounds of a loop is used up. -/
  | stuck
  deriving DecidableEq

/-- The buffer with the positions of the two pointers. -/
structure Minify where
  buffer : Bytes
  json : Nat
  into : Nat
  deriving DecidableEq

namespace Minify

abbrev Run := Except Fault Minify

/-- `json[i]` -/
def load (s : Minify) (i : Nat) : Except Fault UInt8 :=
  match s.buffer[s.json + i]? with
  | some c => .ok c
  | none => .error .outside

/-- `json+=n;` -/
def advance (s : Minify) (n : Nat) : Minify := { s with json := s.json + n }

/-- `*into=c;` -/
def store (s : Minify) (c : UInt8) : Run :=
  if s.into < s.buffer.length then .ok { s with buffer := s.buffer.set s.into c }
  else .error .outside

/-- `*into++=*json++;` -/
def copy (s : Minify) : Run := do
  let c ← s.load 0
  let s ← s.store c
  .ok { s with json := s.json + 1, into := s.into + 1 }

/-- `while (*json && *json!='\n') json++;` -/
def skipLine : Nat → Minify → Run
  | 0, _ => .error .stuck
  | fuel + 1, s => do
      let c ← s.load 0
      if c ≠ 0 && c ≠ newline then skipLine fuel (s.advance 1) else .ok s

/-- `while (*json && !(*json=='*' && json[1]=='/')) json++;` -/
def skipBlock : Nat → Minify → Run
  | 0, _ => .error .stuck
  | fuel + 1, s => do
      let c ← s.load 0
      if c = 0 then .ok s
      else if c = asterisk then do
        let d ← s.load 1
        if d = slash then .ok s else skipBlock fuel (s.advance 1)
      else skipBlock fuel (s.advance 1)

/-- The loop over the bytes of a string literal. -/
def copyChars : Nat → Minify → Run
  | 0, _ => .error .stuck
  | fuel + 1, s => do
      let c ← s.load 0
      if c ≠ 0 && c ≠ quote then do
        let s ← if c = backslash then s.copy else .ok s
        let s ← s.copy
        copyChars fuel s
      else .ok s

/-- A bound on the rounds of a loop: each moves `json`. -/
def rounds (s : Minify) : Nat := s.buffer.length + 1

/-- The body of the outer loop, where `json` points to `c`. -/
def round (s : Minify) (c : UInt8) : Run :=
  if c = space || c = tab || c = carriageReturn || c = newline then .ok (s.advance 1)
  else if c = slash then do
    let d ← s.load 1
    if d = slash then skipLine s.rounds s
    else if d = asterisk then do
      let s ← skipBlock s.rounds s
      .ok (s.advance 2)
    else s.copy
  else if c = quote then do
    let s ← s.copy
    let s ← copyChars s.rounds s
    s.copy
  else s.copy

/-- The outer loop. -/
def pass : Nat → Minify → Run
  | 0, _ => .error .stuck
  | fuel + 1, s => do
      let c ← s.load 0
      if c = 0 then .ok s
      else do
        let s ← s.round c
        pass fuel s

end Minify

/-- `cJSON_Minify` -/
def minify (json : Bytes) : Except Minify.Fault Bytes := do
  let s : Minify := ⟨json, 0, 0⟩
  let s ← Minify.pass s.rounds s
  let s ← s.store 0
  .ok s.buffer

end RebuildTheWheel.CJson
