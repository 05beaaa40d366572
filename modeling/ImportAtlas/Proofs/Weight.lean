import Mathlib.Algebra.Order.BigOperators.Group.List
import ImportAtlas.Proofs.Places

/-!
# What reducing drops

Reducing a path drops segments: those that name nothing, and with every `..` one that does. So no
path grows when it is reduced, below which directory it may be taken up; and a path without `..`
segments only loses what names nothing.

## Summary

* `Path.isPart` are the segments that name something.
* `Path.weight` is what segments weigh together, dots apart.

## Main results

* `Path.reduce_append_reduce`: a path that is taken up below a directory may be reduced before.
* `Path.reduce_of_not_mem`: what is left of a path without `..` segments.
* `Path.weight_segments_eq`: segments weigh as much as the characters of a text but its slashes.
-/

namespace ImportAtlas

namespace Path

variable {rooted : Bool} {segs : List Segment}

/-! ### Reducing drops segments -/

theorem push_up (rooted : Bool) (stack : List Segment) : push rooted stack up =
    match stack with
    | [] => if rooted then [] else [up]
    | top :: below => if top = up then up :: stack else below :=
  (if_neg (by decide)).trans (if_pos rfl)

theorem foldl_push_sublist (rooted : Bool) (segs stack : List Segment) :
    (segs.foldl (push rooted) stack).reverse.Sublist (stack.reverse ++ segs) := by
  induction segs generalizing stack with
  | nil => simp
  | cons seg segs ih =>
      have hdrop : ∀ {kept : List Segment}, kept.Sublist stack →
          (kept.reverse ++ segs).Sublist (stack.reverse ++ seg :: segs) := fun hkept =>
        hkept.reverse.append (List.sublist_cons_self seg segs)
      have hkeep : ((seg :: stack).reverse ++ segs).Sublist (stack.reverse ++ seg :: segs) := by
        simp
      refine (ih _).trans ?_
      rw [push.eq_def]
      split
      · exact hdrop (List.Sublist.refl _)
      · split
        · rename_i hup
          cases stack with
          | nil =>
              cases rooted with
              | true => exact hdrop (List.Sublist.refl _)
              | false => rw [← hup]; exact hkeep
          | cons top below =>
              dsimp only
              split
              · rw [← hup]
                exact hkeep
              · exact hdrop (List.sublist_cons_self top below)
        · exact hkeep

theorem reduce_sublist (rooted : Bool) (segs : List Segment) :
    (reduce rooted segs).Sublist segs := foldl_push_sublist rooted segs []

/-- Whether a segment of a path names something. -/
def isPart (seg : Segment) : Bool := decide (seg ≠ [] ∧ seg ≠ here)

theorem parts_eq (path : String) : parts path = (segments path.toList).filter isPart := rfl

theorem of_mem_parts {path : String} {seg : Segment} (h : seg ∈ parts path) :
    seg ≠ [] ∧ seg ≠ here ∧ '/' ∉ seg := by
  obtain ⟨hseg, hpart⟩ := List.mem_filter.1 h
  obtain ⟨hempty, hhere⟩ := of_decide_eq_true hpart
  exact ⟨hempty, hhere, not_mem_of_mem_segments hseg⟩

/-- Without `..` segments, reducing leaves what names something. -/
theorem foldl_push_of_not_mem (h : up ∉ segs) (stack : List Segment) :
    segs.foldl (push rooted) stack = (segs.filter isPart).reverse ++ stack := by
  induction segs generalizing stack with
  | nil => rfl
  | cons seg segs ih =>
      rw [List.mem_cons, not_or] at h
      rw [List.foldl_cons, ih h.2]
      by_cases hskip : seg = [] ∨ seg = here
      · rw [push_of_skip hskip, List.filter_cons_of_neg]
        simpa [isPart, ← not_or] using hskip
      · rw [not_or] at hskip
        rw [push_of_name hskip.1 hskip.2 (Ne.symm h.1),
          List.filter_cons_of_pos (by simp [isPart, hskip])]
        simp

theorem reduce_of_not_mem (h : up ∉ segs) : reduce rooted segs = segs.filter isPart := by
  rw [reduce, foldl_push_of_not_mem h, List.append_nil, List.reverse_reverse]

/-- A segment may be pushed before the segments below it are followed from a directory, or after. -/
theorem foldl_push_reverse_push {stack : List Segment} (h : Settled stack) (seg : Segment)
    (below : List Segment) :
    (push false stack seg).reverse.foldl (push rooted) below =
      push rooted (stack.reverse.foldl (push rooted) below) seg := by
  by_cases hskip : seg = [] ∨ seg = here
  · rw [push_of_skip hskip, push_of_skip hskip]
  obtain ⟨hempty, hhere⟩ := not_or.1 hskip
  by_cases hup : seg = up
  · subst hup
    cases stack with
    | nil => rfl
    | cons top rest =>
        by_cases htop : top = up
        · simp [push_up false, htop]
        · obtain ⟨htopEmpty, htopHere⟩ := h.names top List.mem_cons_self
          rw [List.reverse_cons, List.foldl_append, List.foldl_cons, List.foldl_nil,
            push_of_name htopEmpty htopHere htop, push_up, push_up]
          simp only [htop, if_false]
  · rw [push_of_name hempty hhere hup, List.reverse_cons, List.foldl_append]
    rfl

theorem foldl_push_reduce (segs below : List Segment) :
    (reduce false segs).foldl (push rooted) below = segs.foldl (push rooted) below := by
  induction segs using List.reverseRecOn with
  | nil => rfl
  | append_singleton segs seg ih =>
      rw [reduce, List.foldl_append, List.foldl_cons, List.foldl_nil,
        foldl_push_reverse_push (settled_reduced false segs), ← reduce, ih, List.foldl_append]
      rfl

/-- A path that is taken up below a directory may be reduced before. -/
theorem reduce_append_reduce (names segs : List Segment) :
    reduce rooted (names ++ reduce false segs) = reduce rooted (names ++ segs) := by
  rw [reduce, List.foldl_append, foldl_push_reduce, ← List.foldl_append, ← reduce]

/-! ### The parts of a path -/

theorem foldl_push_filter_isPart (segs stack : List Segment) :
    (segs.filter isPart).foldl (push rooted) stack = segs.foldl (push rooted) stack := by
  induction segs generalizing stack with
  | nil => rfl
  | cons seg segs ih =>
      by_cases hskip : seg = [] ∨ seg = here
      · rw [List.foldl_cons, push_of_skip hskip, List.filter_cons_of_neg, ih]
        simpa [isPart, ← not_or] using hskip
      · rw [List.filter_cons_of_pos (by simpa [isPart, ← not_or] using hskip), List.foldl_cons,
          List.foldl_cons, ih]

/-- Only the parts of a path count when it is reduced. -/
theorem reduce_append_filter_isPart (names segs : List Segment) :
    reduce rooted (names ++ segs.filter isPart) = reduce rooted (names ++ segs) := by
  rw [reduce, reduce, List.foldl_append, List.foldl_append, foldl_push_filter_isPart]

theorem absolute_eq_reduce_parts (path : String) : absolute path = reduce true (parts path) :=
  (reduce_append_filter_isPart [] _).symm

theorem filter_isPart_parts (path : String) : (parts path).filter isPart = parts path := by
  rw [parts_eq, List.filter_filter]
  simp

/-- Without `..` segments, the parts of a path are reduced. -/
theorem reduce_parts {path : String} (h : up ∉ parts path) :
    reduce rooted (parts path) = parts path := by
  rw [reduce_of_not_mem h, filter_isPart_parts]

theorem filter_isPart_reduce (rooted : Bool) (segs : List Segment) :
    (reduce rooted segs).filter isPart = reduce rooted segs := by
  refine List.filter_eq_self.2 fun seg hseg => ?_
  simpa [isPart] using ne_of_mem_reduce hseg

theorem filter_segments_slash (cs : List Char) :
    (segments ('/' :: cs)).filter isPart = (segments cs).filter isPart := by
  rw [segments, Url.splitOn_slash, List.filter_cons_of_neg (by simp [isPart]), segments]

theorem filter_segments_replicate (n : Nat) (cs : List Char) :
    (segments (List.replicate n '/' ++ cs)).filter isPart = (segments cs).filter isPart := by
  induction n with
  | zero => rfl
  | succ n ih => rw [List.replicate_succ, List.cons_append, filter_segments_slash, ih]

theorem filter_segments_joinSegments (h : ∀ seg ∈ segs, '/' ∉ seg) :
    (segments (joinSegments segs)).filter isPart = segs.filter isPart := by
  by_cases hne : segs = []
  · rw [hne]
    rfl
  · rw [segments_joinSegments h hne]

/-- The parts of a path that is written with slashes in front, or as a dot if it is empty. -/
theorem filter_segments_written {n : Nat} (h : ∀ seg ∈ segs, '/' ∉ seg) :
    (segments (if (List.replicate n '/' ++ joinSegments segs).isEmpty then here
      else List.replicate n '/' ++ joinSegments segs)).filter isPart = segs.filter isPart := by
  have htext := filter_segments_replicate n (joinSegments segs)
  rw [filter_segments_joinSegments h] at htext
  split
  · rename_i hempty
    rw [← htext, List.isEmpty_iff.1 hempty]
    rfl
  · exact htext

/-- Showing a path keeps its parts. -/
theorem parts_squeeze (path : String) : parts (squeeze path) = parts path := by
  rw [parts_eq, squeeze, String.toList_ofList, filter_segments_written, filter_isPart_parts]
  exact fun seg hseg => (of_mem_parts hseg).2.2

/-- Normalizing a path reduces its parts. -/
theorem parts_normalize (path : String) :
    parts (normalize path) = reduce (rootSlashes path.toList ≠ 0) (parts path) := by
  have hparts := @reduce_append_filter_isPart (decide (rootSlashes path.toList ≠ 0)) []
    (segments path.toList)
  rw [parts_eq, normalize, String.toList_ofList, normalizeChars, filter_segments_written,
    filter_isPart_reduce]
  · exact hparts.symm
  · exact fun seg hseg => not_mem_of_mem_segments (mem_of_mem_reduce hseg)

/-- A path below a directory has the parts of both. -/
theorem parts_join {dir path : String} (h : path.toList.head? ≠ some '/') :
    parts (join dir path) = parts dir ++ parts path := by
  have hslash : ∀ front : List Char, (segments (front ++ '/' :: path.toList)).filter isPart =
      (segments front).filter isPart ++ parts path := fun front => by
    rw [segments, List.splitOn_append_cons_self, List.filter_append]
    rfl
  rw [parts_eq, join, String.toList_ofList, joinChars, if_neg h]
  split
  · rename_i hends
    by_cases hnil : dir.toList = []
    · rw [parts_eq, hnil]
      rfl
    · have hlast : dir.toList.getLast? = some '/' := by simpa [hnil] using hends
      obtain ⟨front, hfront⟩ := List.getLast?_eq_some_iff.1 hlast
      have hdir := hslash front
      have hself : parts dir = (segments front).filter isPart := by
        rw [parts_eq, hfront, segments, List.splitOn_append_cons_self, List.filter_append,
          List.splitOn_nil]
        exact List.append_nil _
      rw [hfront, List.append_assoc, List.singleton_append, hdir, hself]
  · exact hslash _

/-- A rooted path stands for itself. -/
theorem join_of_rooted {dir path : String} (h : path.toList.head? = some '/') :
    join dir path = path := by
  rw [join, joinChars, if_pos h, String.ofList_toList]

theorem segments_dotSlash (cs : List Char) : segments ('.' :: '/' :: cs) = here :: segments cs :=
  @List.splitOn_append_cons_self_of_not_mem Char ['.'] _ _ '/' (by decide) cs

/-! ### The weight of segments -/

/-- What segments other than dots weigh together. -/
def weight (f : Segment → Nat) (segs : List Segment) : Nat :=
  ((segs.filter fun seg => seg ≠ here).map f).sum

variable {f g : Segment → Nat} {segs' : List Segment}

theorem weight_append (f : Segment → Nat) (segs segs' : List Segment) :
    weight f (segs ++ segs') = weight f segs + weight f segs' := by
  rw [weight, List.filter_append, List.map_append, List.sum_append]
  rfl

theorem weight_cons_of_ne {seg : Segment} (h : seg ≠ here) (f : Segment → Nat)
    (segs : List Segment) : weight f (seg :: segs) = f seg + weight f segs := by
  rw [weight, List.filter_cons_of_pos (by simpa using h), List.map_cons, List.sum_cons]
  rfl

theorem weight_here_cons (f : Segment → Nat) (segs : List Segment) :
    weight f (here :: segs) = weight f segs := by
  rw [weight, List.filter_cons_of_neg (by simp)]
  rfl

theorem weight_le_of_sublist (h : segs.Sublist segs') : weight f segs ≤ weight f segs' :=
  ((h.filter _).map f).sum_le_sum fun _ _ => Nat.zero_le _

/-- Segments that weigh less each weigh less together. -/
theorem weight_le_weight (h : ∀ seg ∈ segs, f seg ≤ g seg) : weight f segs ≤ weight g segs :=
  List.sum_le_sum fun seg hseg => h seg (List.mem_of_mem_filter hseg)

theorem weight_lt_weight (h : ∀ seg ∈ segs, f seg ≤ g seg) {seg : Segment} (hseg : seg ∈ segs)
    (hhere : seg ≠ here) (hlt : f seg < g seg) : weight f segs < weight g segs :=
  List.sum_lt_sum _ _ (fun seg hseg => h seg (List.mem_of_mem_filter hseg))
    ⟨seg, List.mem_filter.2 ⟨hseg, by simpa using hhere⟩, hlt⟩

/-- Segments without content weigh nothing. -/
theorem weight_filter_isPart (h : f [] = 0) (segs : List Segment) :
    weight f (segs.filter isPart) = weight f segs := by
  induction segs with
  | nil => rfl
  | cons seg segs ih =>
      by_cases hhere : seg = here
      · rw [hhere, List.filter_cons_of_neg (by simp [isPart]), weight_here_cons, ih]
      by_cases hnil : seg = []
      · rw [hnil, List.filter_cons_of_neg (by simp [isPart]), weight_cons_of_ne (by decide), h, ih,
          Nat.zero_add]
      · rw [List.filter_cons_of_pos (by simp [isPart, hhere, hnil]), weight_cons_of_ne hhere,
          weight_cons_of_ne hhere, ih]

/-- Segments weigh no more than the text that they are written as, slashes apart, and as much if
none is a dot. -/
theorem weight_length_le {segs : List Segment} (h : ∀ seg ∈ segs, '/' ∉ seg) :
    weight List.length segs ≤ (joinSegments segs).countP (· ≠ '/') ∧
      (here ∉ segs → weight List.length segs = (joinSegments segs).countP (· ≠ '/')) := by
  have hcount : ∀ {seg : Segment}, '/' ∉ seg → seg.countP (· ≠ '/') = seg.length := fun hseg =>
    List.countP_eq_length.2 fun c hc => decide_eq_true fun heq => hseg (heq ▸ hc)
  induction segs with
  | nil => exact ⟨Nat.le_refl _, fun _ => rfl⟩
  | cons seg segs ih =>
      obtain ⟨hseg, hsegs⟩ := List.forall_mem_cons.1 h
      obtain ⟨hle, heq⟩ := ih hsegs
      have htext : (joinSegments (seg :: segs)).countP (· ≠ '/') =
          seg.length + (joinSegments segs).countP (· ≠ '/') := by
        by_cases hne : segs = []
        · rw [hne, joinSegments_singleton, hcount hseg]
          rfl
        · rw [joinSegments_cons hne, List.countP_append, hcount hseg,
            List.countP_cons_of_neg (by simp)]
      rw [htext]
      constructor
      · by_cases hhere : seg = here
        · rw [hhere, weight_here_cons]
          omega
        · rw [weight_cons_of_ne hhere]
          omega
      · intro hdots
        rw [List.mem_cons, not_or] at hdots
        rw [weight_cons_of_ne (Ne.symm hdots.1), heq hdots.2]

theorem weight_segments_le (cs : List Char) :
    weight List.length (segments cs) ≤ cs.countP (· ≠ '/') := by
  have hjoin : joinSegments (segments cs) = cs := List.intercalate_splitOn '/'
  have hle := (@weight_length_le (segments cs) fun _ => not_mem_of_mem_segments).1
  rwa [hjoin] at hle

theorem weight_segments_eq {cs : List Char} (h : here ∉ segments cs) :
    weight List.length (segments cs) = cs.countP (· ≠ '/') := by
  have hjoin : joinSegments (segments cs) = cs := List.intercalate_splitOn '/'
  have heq := (@weight_length_le (segments cs) fun _ => not_mem_of_mem_segments).2 h
  rwa [hjoin] at heq

end Path

end ImportAtlas
