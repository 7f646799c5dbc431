import Mathlib.Data.List.TakeWhile
import RebuildTheWheel.Data.Ascii

namespace RebuildTheWheel.Data

/-! Buffers of a fixed size with the string functions of C. A store that does not fit has no
result, nor has the string of a buffer that holds no NUL. -/

namespace StringBuffer

def bzero (size : Nat) : Bytes := List.replicate size 0

def store (buf : Bytes) (offset : Nat) (bytes : Bytes) : Option Bytes :=
  if offset + bytes.length ≤ buf.length then
    some (buf.take offset ++ (bytes ++ buf.drop (offset + bytes.length)))
  else none

def string? (buf : Bytes) : Option Bytes := if 0 ∈ buf then some (buf.takeWhile (· ≠ 0)) else none

def strcpy (dst src : Bytes) : Option Bytes := store dst 0 (src ++ [0])

def strcat (dst src : Bytes) : Option Bytes := do
  let s ← string? dst
  store dst s.length (src ++ [0])

/-- `n` bytes are stored: what the string is shorter is filled with NULs, and a longer string is
cut off and not terminated. -/
def strncpy (dst src : Bytes) (n : Nat) : Option Bytes :=
  store dst 0 (src.take n ++ List.replicate (n - src.length) 0)

/-- Where a character is first found. -/
def strchr (s : Bytes) (c : UInt8) : Option Nat := s.findIdx? (· = c)

def strcspn (s : Bytes) (c : UInt8) : Nat := (s.takeWhile (· ≠ c)).length

def strstr (s pat : Bytes) : Option Nat :=
  if pat.isPrefixOf s then some 0
  else
    match s with
    | [] => none
    | _ :: s => (strstr s pat).map (· + 1)

/-- The buffer has this size and holds this string. -/
structure Holds (size : Nat) (buf s : Bytes) : Prop where
  length : buf.length = size
  clean : 0 ∉ s
  text : ∃ rest, buf = s ++ 0 :: rest

variable {size offset n : Nat} {buf bytes s t pre post : Bytes} {c : UInt8}

theorem takeWhile_nul (hs : 0 ∉ s) (rest : Bytes) : (s ++ 0 :: rest).takeWhile (· ≠ 0) = s := by
  rw [List.takeWhile_append_of_pos, List.takeWhile_cons_of_neg (by decide), List.append_nil]
  intro c hc
  exact decide_eq_true (ne_of_mem_of_not_mem hc hs)

theorem Holds.string (h : Holds size buf s) : string? buf = some s := by
  obtain ⟨rest, rfl⟩ := h.text
  have hmem : (0 : UInt8) ∈ s ++ 0 :: rest := List.mem_append_right s List.mem_cons_self
  rw [string?, if_pos hmem, takeWhile_nul h.clean]

theorem string?_eq_none : string? buf = none ↔ 0 ∉ buf := by
  unfold string?
  split_ifs with hmem <;> simp [hmem]

/-- A string and the NULs behind it. -/
theorem holds_filled (hs : 0 ∉ s) (hfits : s.length < size) :
    Holds size (s ++ List.replicate (size - s.length) 0) s := by
  obtain ⟨n, hn⟩ := Nat.exists_eq_succ_of_ne_zero (Nat.sub_ne_zero_of_lt hfits)
  refine ⟨?_, hs, List.replicate n 0, ?_⟩
  · rw [List.length_append, List.length_replicate]
    omega
  · rw [hn, List.replicate_succ]

theorem holds_bzero (hsize : 0 < size) : Holds size (bzero size) [] :=
  holds_filled List.not_mem_nil hsize

theorem store_end (hbuf : buf = s ++ post) (hfits : bytes.length ≤ post.length) :
    store buf s.length bytes = some (s ++ (bytes ++ post.drop bytes.length)) := by
  have hlength : s.length + bytes.length ≤ (s ++ post).length := by
    rw [List.length_append]
    omega
  rw [store, hbuf, if_pos hlength, List.take_left, List.drop_length_add_append]

theorem Holds.strcat (h : Holds size buf s) (ht : 0 ∉ t) (hfits : s.length + t.length < size) :
    ∃ buf', strcat buf t = some buf' ∧ Holds size buf' (s ++ t) := by
  obtain ⟨rest, hbuf⟩ := h.text
  have hlength := h.length
  rw [hbuf, List.length_append] at hlength
  have hroom : (t ++ [0]).length ≤ (0 :: rest : Bytes).length := by
    rw [List.length_append, List.length_singleton]
    omega
  have hstore := store_end hbuf hroom
  refine ⟨s ++ (t ++ [0] ++ (0 :: rest : Bytes).drop (t ++ [0]).length), ?_,
    ⟨?_, ?_, (0 :: rest : Bytes).drop (t ++ [0]).length, ?_⟩⟩
  · rw [StringBuffer.strcat, h.string]
    exact hstore
  · simp only [List.length_append, List.length_drop, List.length_singleton] at hroom hlength ⊢
    omega
  · exact fun hmem => (List.mem_append.mp hmem).elim h.clean ht
  · simp only [List.append_assoc, List.singleton_append]

theorem Holds.strcats {texts : List Bytes} (h : Holds size buf s) (htexts : ∀ t ∈ texts, 0 ∉ t)
    (hfits : s.length + texts.flatten.length < size) :
    ∃ buf', texts.foldlM StringBuffer.strcat buf = some buf' ∧ Holds size buf' (s ++ texts.flatten) := by
  induction texts generalizing buf s with
  | nil => exact ⟨buf, rfl, by rwa [List.flatten_nil, List.append_nil]⟩
  | cons t texts ih =>
      rw [List.flatten_cons, List.length_append] at hfits
      obtain ⟨buf₁, hbuf₁, h₁⟩ := h.strcat (htexts t List.mem_cons_self) (by omega)
      obtain ⟨buf', hbuf', h'⟩ := ih h₁ (fun t ht => htexts t (List.mem_cons_of_mem _ ht))
        (by rw [List.length_append]; omega)
      refine ⟨buf', ?_, ?_⟩
      · rw [List.foldlM_cons, hbuf₁]
        exact hbuf'
      · rwa [List.flatten_cons, ← List.append_assoc]

theorem strcpy_eq_strcat (h : Holds size buf []) (t : Bytes) : strcpy buf t = strcat buf t := by
  rw [strcat, h.string]
  rfl

/-- A part of a string that is copied into a cleared buffer. -/
theorem strncpy_bzero (size : Nat) (hn : n ≤ s.length) :
    strncpy (bzero size) s n =
      if n ≤ size then some (s.take n ++ List.replicate (size - n) 0) else none := by
  have hlength : (s.take n).length = n := List.length_take_of_le hn
  rw [strncpy, Nat.sub_eq_zero_of_le hn, List.replicate_zero, List.append_nil, store, Nat.zero_add,
    hlength, bzero, List.length_replicate, List.take_zero, List.nil_append, List.drop_replicate]

theorem strchr_append (hs : c ∉ s) (rest : Bytes) : strchr (s ++ c :: rest) c = some s.length := by
  rw [strchr, List.findIdx?_append]
  have hnone : s.findIdx? (· = c) = none := by
    rw [List.findIdx?_eq_none_iff]
    exact fun x hx => decide_eq_false (ne_of_mem_of_not_mem hx hs)
  simp [hnone, List.findIdx?_cons]

theorem strchr_eq_none : strchr s c = none ↔ c ∉ s := by
  rw [strchr, List.findIdx?_eq_none_iff]
  constructor
  · exact fun h hmem => absurd (h c hmem) (by simp)
  · exact fun h x hx => decide_eq_false (ne_of_mem_of_not_mem hx h)

theorem strcspn_append (hs : c ∉ s) (rest : Bytes) : strcspn (s ++ c :: rest) c = s.length := by
  have htake : ∀ x ∈ s, decide (x ≠ c) = true := fun x hx =>
    decide_eq_true (ne_of_mem_of_not_mem hx hs)
  rw [strcspn, List.takeWhile_append_of_pos htake, List.takeWhile_cons_of_neg (by simp),
    List.append_nil]

/-- No match before the end of a string that the character is not in. -/
theorem filter_strchr (hs : c ∉ s) (rest : Bytes) :
    (strchr (s ++ rest) c).filter (· < s.length) = none := by
  have hnone : s.findIdx? (· = c) = none := by
    rw [List.findIdx?_eq_none_iff]
    exact fun x hx => decide_eq_false (ne_of_mem_of_not_mem hx hs)
  rw [strchr, List.findIdx?_append, hnone, Option.filter_eq_none_iff]
  simp

theorem strstr_cons_of_ne {d : UInt8} (hne : d ≠ c) (s pat : Bytes) :
    strstr (c :: s) (d :: pat) = (strstr s (d :: pat)).map (· + 1) := by
  rw [strstr.eq_def, if_neg (by simp [hne])]

theorem strstr_append (pat s : Bytes) : strstr (pat ++ s) pat = some 0 := by
  rw [strstr.eq_def, if_pos (by simp)]

end StringBuffer

end RebuildTheWheel.Data
