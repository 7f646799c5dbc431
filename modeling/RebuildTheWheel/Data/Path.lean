import Mathlib.Data.List.Induction
import RebuildTheWheel.Data.Ascii

namespace RebuildTheWheel.Data

open Ascii

/-! Paths of files, read segment by segment, without symbolic links. A directory is given by its
names, the innermost first. -/

namespace Path

def dot : Bytes := [point]

def dotdot : Bytes := [point, point]

def segments : Bytes → List Bytes
  | [] => [[]]
  | c :: cs =>
      if c = slash then [] :: segments cs
      else
        match segments cs with
        | s :: ss => (c :: s) :: ss
        | [] => [[c]]

/-- The root directory is its own parent. -/
def enter (dir : List Bytes) (s : Bytes) : List Bytes :=
  if s = [] ∨ s = dot then dir else if s = dotdot then dir.tail else s :: dir

def resolve (dir : List Bytes) (ss : List Bytes) : List Bytes := ss.foldl enter dir

/-- How deep below its start a path ends, if it never climbs above it. -/
def depth : Nat → List Bytes → Option Nat
  | d, [] => some d
  | d, s :: ss =>
      if s = [] ∨ s = dot then depth d ss
      else if s = dotdot then
        if d = 0 then none else depth (d - 1) ss
      else depth (d + 1) ss

def IsName (s : Bytes) : Prop := ¬(s = [] ∨ s = dot) ∧ s ≠ dotdot

instance (s : Bytes) : Decidable (IsName s) := inferInstanceAs (Decidable (_ ∧ _))

variable {s b x : Bytes} {ss ss' dir inner : List Bytes} {d e : Nat}

theorem segments_ne_nil (path : Bytes) : segments path ≠ [] := by
  cases path with
  | nil => exact List.cons_ne_nil _ _
  | cons c path =>
      rw [segments]
      split_ifs
      · exact List.cons_ne_nil _ _
      · split <;> exact List.cons_ne_nil _ _

theorem segments_append (path path' : Bytes) :
    segments (path ++ slash :: path') = segments path ++ segments path' := by
  induction path with
  | nil => exact if_pos rfl
  | cons c path ih =>
      rw [List.cons_append, segments, segments, ih]
      split_ifs
      · rfl
      · cases hpath : segments path with
        | nil => exact absurd hpath (segments_ne_nil path)
        | cons s ss => rfl

theorem segments_of_notMem (h : slash ∉ s) : segments s = [s] := by
  induction s with
  | nil => rfl
  | cons c s ih =>
      rw [List.mem_cons, not_or] at h
      rw [segments, if_neg (Ne.symm h.1), ih h.2]

/-- The segments of a path read from its end. -/
theorem segments_reverse (path : Bytes) :
    segments path.reverse = ((segments path).map List.reverse).reverse := by
  induction hn : path.length using Nat.strongRecOn generalizing path with
  | ind n ih =>
      by_cases hmem : slash ∈ path
      · obtain ⟨s, rest, rfl, hs⟩ := List.eq_append_cons_of_mem hmem
        have hrest := ih rest.length (by simp [← hn]; omega) rest rfl
        have hreverse : slash ∉ s.reverse := fun h => hs (List.mem_reverse.mp h)
        rw [segments_append, segments_of_notMem hs, List.reverse_append, List.reverse_cons,
          List.append_assoc, List.singleton_append, segments_append, hrest,
          segments_of_notMem hreverse]
        simp
      · have hreverse : slash ∉ path.reverse := fun h => hmem (List.mem_reverse.mp h)
        rw [segments_of_notMem hmem, segments_of_notMem hreverse]
        rfl

theorem dotdot_ne : ¬(dotdot = [] ∨ dotdot = dot) := by decide

theorem depth_still (h : s = [] ∨ s = dot) (d : Nat) (ss : List Bytes) :
    depth d (s :: ss) = depth d ss := by
  rw [depth, if_pos h]

theorem depth_up (d : Nat) (ss : List Bytes) : depth (d + 1) (dotdot :: ss) = depth d ss := by
  rw [depth, if_neg dotdot_ne, if_pos rfl, if_neg d.succ_ne_zero, Nat.add_sub_cancel]

theorem depth_above (ss : List Bytes) : depth 0 (dotdot :: ss) = none := by
  rw [depth, if_neg dotdot_ne, if_pos rfl, if_pos rfl]

theorem depth_name (h : IsName s) (d : Nat) (ss : List Bytes) :
    depth d (s :: ss) = depth (d + 1) ss := by
  rw [depth, if_neg h.1, if_neg h.2]

theorem enter_still (h : s = [] ∨ s = dot) (dir : List Bytes) : enter dir s = dir := if_pos h

theorem enter_up (dir : List Bytes) : enter dir dotdot = dir.tail := by
  rw [enter, if_neg dotdot_ne, if_pos rfl]

theorem enter_name (h : IsName s) (dir : List Bytes) : enter dir s = s :: dir := by
  rw [enter, if_neg h.1, if_neg h.2]

/-- A segment stays, goes up, or is a name. -/
theorem segment_cases (s : Bytes) : (s = [] ∨ s = dot) ∨ s = dotdot ∨ IsName s := by
  by_cases hstill : s = [] ∨ s = dot
  · exact .inl hstill
  · by_cases hup : s = dotdot
    · exact .inr (.inl hup)
    · exact .inr (.inr ⟨hstill, hup⟩)

theorem depth_append (d : Nat) (ss ss' : List Bytes) :
    depth d (ss ++ ss') = (depth d ss).bind fun e => depth e ss' := by
  induction ss generalizing d with
  | nil => rfl
  | cons s ss ih =>
      rw [List.cons_append]
      rcases segment_cases s with hstill | rfl | hname
      · rw [depth_still hstill, depth_still hstill, ih]
      · cases d with
        | zero =>
            rw [depth_above, depth_above]
            rfl
        | succ d => rw [depth_up, depth_up, ih]
      · rw [depth_name hname, depth_name hname, ih]

theorem isSome_depth (h : dotdot ∉ ss) (d : Nat) : (depth d ss).isSome := by
  induction ss generalizing d with
  | nil => rfl
  | cons s ss ih =>
      rw [List.mem_cons, not_or] at h
      rcases segment_cases s with hstill | rfl | hname
      · rw [depth_still hstill]
        exact ih h.2 d
      · exact absurd rfl h.1
      · rw [depth_name hname]
        exact ih h.2 (d + 1)

theorem resolve_append (dir ss ss' : List Bytes) :
    resolve dir (ss ++ ss') = resolve (resolve dir ss) ss' := List.foldl_append

/-- A path that does not climb above its start does the same everywhere. -/
theorem resolve_of_depth (h : depth inner.length ss = some e) :
    (resolve inner ss).length = e ∧ ∀ dir, resolve (inner ++ dir) ss = resolve inner ss ++ dir := by
  induction ss generalizing inner with
  | nil => exact ⟨Option.some.inj h, fun _ => rfl⟩
  | cons s ss ih =>
      rw [resolve, List.foldl_cons]
      simp only [resolve, List.foldl_cons] at ih ⊢
      rcases segment_cases s with hstill | rfl | hname
      · rw [depth_still hstill] at h
        simp only [enter_still hstill]
        exact ih h
      · cases inner with
        | nil => simp [depth_above] at h
        | cons name inner =>
            rw [List.length_cons, depth_up] at h
            simp only [enter_up]
            exact ih h
      · rw [depth_name hname] at h
        simp only [enter_name hname]
        change depth (s :: inner).length ss = some e at h
        exact ih h

theorem notMem_resolve (hss : x ∉ ss) (hdir : x ∉ dir) : x ∉ resolve dir ss := by
  induction ss generalizing dir with
  | nil => exact hdir
  | cons s ss ih =>
      rw [List.mem_cons, not_or] at hss
      rw [resolve, List.foldl_cons]
      refine ih hss.2 ?_
      rcases segment_cases s with hstill | rfl | hname
      · rwa [enter_still hstill]
      · rw [enter_up]
        exact fun hmem => hdir (List.mem_of_mem_tail hmem)
      · rw [enter_name hname]
        exact fun hmem => (List.mem_cons.mp hmem).elim hss.1 hdir

/-- A directory that is still there at the end was never left. -/
theorem depth_of_mem (hss : x ∉ ss) (hinner : x ∉ inner) (h : x ∈ resolve (inner ++ [x]) ss) :
    ∃ e, depth inner.length ss = some e := by
  induction ss generalizing inner with
  | nil => exact ⟨_, rfl⟩
  | cons s ss ih =>
      rw [List.mem_cons, not_or] at hss
      rw [resolve, List.foldl_cons] at h
      rcases segment_cases s with hstill | rfl | hname
      · rw [enter_still hstill] at h
        rw [depth_still hstill]
        exact ih hss.2 hinner h
      · rw [enter_up] at h
        cases inner with
        | nil => exact absurd h (notMem_resolve hss.2 List.not_mem_nil)
        | cons name inner =>
            rw [List.length_cons, depth_up]
            exact ih hss.2 (fun hmem => hinner (List.mem_cons_of_mem name hmem)) h
      · rw [enter_name hname] at h
        rw [depth_name hname]
        change ∃ e, depth (s :: inner).length ss = some e
        exact ih hss.2 (fun hmem => (List.mem_cons.mp hmem).elim hss.1 hinner) h

/-- The outermost name was entered where the path had come back to its start. -/
theorem exists_split (h : depth 0 ss = some e) (hresolve : resolve [] ss = inner ++ [b]) :
    ∃ before after, ss = before ++ b :: after ∧ depth 0 before = some 0 ∧
      depth 0 after = some inner.length := by
  induction ss using List.reverseRecOn generalizing inner e with
  | nil => exact absurd hresolve.symm (List.append_ne_nil_of_right_ne_nil _ (List.cons_ne_nil _ _))
  | append_singleton ss s ih =>
      rw [depth_append] at h
      obtain ⟨d, hd, hlast⟩ := Option.bind_eq_some_iff.mp h
      rw [resolve_append] at hresolve
      change enter (resolve [] ss) s = inner ++ [b] at hresolve
      obtain ⟨hlength, -⟩ : (resolve [] ss).length = d ∧ _ := resolve_of_depth hd
      rcases segment_cases s with hstill | rfl | hname
      · rw [enter_still hstill] at hresolve
        obtain ⟨before, after, rfl, hbefore, hafter⟩ := ih hd hresolve
        refine ⟨before, after ++ [s], by simp, hbefore, ?_⟩
        rw [depth_append, hafter, Option.bind_some, depth_still hstill, depth]
      · rw [enter_up] at hresolve
        cases hstack : resolve [] ss with
        | nil => simp [hstack] at hresolve
        | cons name rest =>
            rw [hstack, List.tail_cons] at hresolve
            rw [hresolve, ← List.cons_append] at hstack
            obtain ⟨before, after, rfl, hbefore, hafter⟩ := ih hd hstack
            refine ⟨before, after ++ [dotdot], by simp, hbefore, ?_⟩
            rw [depth_append, hafter, Option.bind_some, List.length_cons, depth_up, depth]
      · rw [enter_name hname] at hresolve
        cases inner with
        | nil =>
            obtain ⟨rfl, hnil⟩ := List.cons.inj hresolve
            rw [hnil, List.length_nil] at hlength
            exact ⟨ss, [], rfl, hlength ▸ hd, rfl⟩
        | cons name inner =>
            obtain ⟨rfl, hrest⟩ := List.cons.inj hresolve
            obtain ⟨before, after, rfl, hbefore, hafter⟩ := ih hd hrest
            refine ⟨before, after ++ [s], by simp, hbefore, ?_⟩
            rw [depth_append, hafter, Option.bind_some, depth_name hname, depth, List.length_cons]

theorem exists_fresh (ss : List Bytes) : ∃ x : Bytes, x ∉ ss := by
  obtain ⟨n, hn⟩ : ∃ n, ∀ s ∈ ss, s.length ≤ n := by
    induction ss with
    | nil => exact ⟨0, fun s hs => absurd hs List.not_mem_nil⟩
    | cons s ss ih =>
        obtain ⟨n, hn⟩ := ih
        refine ⟨max s.length n, fun t ht => ?_⟩
        rcases List.mem_cons.mp ht with rfl | ht
        · exact Nat.le_max_left _ _
        · exact Nat.le_trans (hn t ht) (Nat.le_max_right _ _)
  refine ⟨List.replicate (n + 1) 0, fun hmem => ?_⟩
  have hle := hn _ hmem
  rw [List.length_replicate] at hle
  omega

/-- Wherever it starts, a path ends below a name of the starting directory if and only if it
enters the name after coming back to the start, and never leaves it again. -/
theorem under_iff (hb : IsName b) :
    (∀ dir, (b :: dir) <:+ resolve dir ss) ↔
      ∃ before after, ss = before ++ b :: after ∧ depth 0 before = some 0 ∧
        (depth 0 after).isSome := by
  constructor
  · intro h
    obtain ⟨x, hx⟩ := exists_fresh ss
    obtain ⟨inner, hinner⟩ := h [x]
    have hmem : x ∈ resolve ([] ++ [x]) ss := by
      rw [List.nil_append, ← hinner]
      exact List.mem_append_right _ (by simp)
    obtain ⟨e, he⟩ := depth_of_mem hx List.not_mem_nil hmem
    have hsame : resolve ([] ++ [x]) ss = _ := (resolve_of_depth he).2 [x]
    rw [List.nil_append, ← hinner, List.append_cons] at hsame
    have hresolve : resolve [] ss = inner ++ [b] := (List.append_inj_left' hsame rfl).symm
    obtain ⟨before, after, hss, hbefore, hafter⟩ := exists_split he hresolve
    exact ⟨before, after, hss, hbefore, hafter ▸ rfl⟩
  · rintro ⟨before, after, rfl, hbefore, hafter⟩ dir
    obtain ⟨e, he⟩ := Option.isSome_iff_exists.mp hafter
    obtain ⟨hlength, hthere⟩ : (resolve [] before).length = 0 ∧ _ := resolve_of_depth hbefore
    obtain ⟨-, hbelow⟩ : (resolve [] after).length = e ∧ _ := resolve_of_depth he
    have hempty : resolve [] before = [] := List.length_eq_zero_iff.mp hlength
    have hback : resolve dir before = dir := by
      have := hthere dir
      rwa [hempty] at this
    have hend : resolve (b :: dir) after = resolve [] after ++ (b :: dir) := hbelow (b :: dir)
    rw [resolve_append, hback, resolve, List.foldl_cons, enter_name hb]
    exact ⟨resolve [] after, hend.symm⟩

end Path

end RebuildTheWheel.Data
