import Soundworks.Plan.Mix
import Soundworks.Proofs.Fallible
import Soundworks.Proofs.Text.Split
/-!
Reading a filter graph. The segments of a graph stand between its semicolons; each one starts with
the labels it reads and ends with the label it defines. A graph that is written from segments
without these marks in their texts reads back as the same segments.
-/

namespace Soundworks

/-- A character that separates segments or encloses a label. -/
def isMark (c : Char) : Bool := c = ';' || c = '[' || c = ']'

/-- A text without the marks of a graph. -/
def Unmarked (s : String) : Prop := ∀ c ∈ s.toList, isMark c = false

theorem Unmarked.not_mem {s : String} (h : Unmarked s) {c : Char} (hc : isMark c = true) :
    c ∉ s.toList := fun hmem => by simp [h c hmem] at hc

theorem unmarked_of_all {s : String} (h : (s.toList.all fun c => !isMark c) = true) :
    Unmarked s := fun c hc => by simpa using List.all_eq_true.mp h c hc

namespace Segment

/-- Reads a segment from the texts that follow its opening brackets, each one cut at its closing
brackets. Only the last label that is read has a text behind it. -/
def ofPieces? : List (List (List Char)) → Option Segment
  | [[label, body], [target, []]] =>
    some
      { reads := [String.ofList label]
        body := String.ofList body
        defines := String.ofList target }
  | [label, []] :: rest =>
    (ofPieces? rest).map fun s => { s with reads := String.ofList label :: s.reads }
  | _ => none

def ofChars? (cs : List Char) : Option Segment :=
  match Text.splitAt '[' cs with
  | [] :: pieces => ofPieces? (pieces.map (Text.splitAt ']'))
  | _ => none

/-- A segment that reads something, and whose texts hold no marks. -/
structure Clean (s : Segment) : Prop where
  reads : ∀ l ∈ s.reads, Unmarked l
  body : Unmarked s.body
  defines : Unmarked s.defines
  nonempty : s.reads ≠ []

def afterBracket : List String → String → String → List Char
  | [], body, target => body.toList ++ '[' :: (target.toList ++ [']'])
  | [label], body, target =>
    label.toList ++ ']' :: (body.toList ++ '[' :: (target.toList ++ [']']))
  | label :: labels, body, target =>
    label.toList ++ ']' :: '[' :: afterBracket labels body target

theorem toList_bracketed (label : String) :
    (bracketed label).toList = '[' :: (label.toList ++ [']']) := by
  simp [bracketed]

theorem toList_text {s : Segment} (h : s.reads ≠ []) :
    s.text.toList = '[' :: afterBracket s.reads s.body s.defines := by
  suffices hreads : ∀ labels : List String, labels ≠ [] →
      (labels.map bracketed).flatMap String.toList ++ s.body.toList ++
        (bracketed s.defines).toList = '[' :: afterBracket labels s.body s.defines by
    rw [text, String.toList_append, String.toList_append, String.toList_join]
    exact hreads s.reads h
  intro labels hlabels
  induction labels with
  | nil => exact absurd rfl hlabels
  | cons label labels ih =>
      cases labels with
      | nil => simp [toList_bracketed, afterBracket]
      | cons next labels =>
          have hnext := ih (by simp)
          rw [List.map_cons, List.flatMap_cons, List.append_assoc, List.append_assoc,
            ← List.append_assoc (List.flatMap _ _), hnext, toList_bracketed]
          simp [afterBracket]

theorem ofPieces?_cons {pieces : List (List (List Char))} {s : Segment}
    (h : ofPieces? pieces = some s) (label : List Char) :
    ofPieces? ([label, []] :: pieces) =
      some { s with reads := String.ofList label :: s.reads } := by
  match pieces, h with
  | [], h => cases h
  | [piece], h =>
    rw [ofPieces?.eq_def] at h
    split at h <;> simp_all [ofPieces?]
  | piece :: next :: rest, h => simp [ofPieces?, h]

theorem ofPieces?_afterBracket {labels : List String} {body target : String}
    (hlabels : ∀ l ∈ labels, Unmarked l) (hne : labels ≠ []) (hbody : Unmarked body)
    (htarget : Unmarked target) :
    ofPieces? ((Text.splitAt '[' (afterBracket labels body target)).map (Text.splitAt ']')) =
      some { reads := labels, body := body, defines := target } := by
  have hlast : Text.splitAt '[' (target.toList ++ [']']) = [target.toList ++ [']']] :=
    Text.splitAt_of_not_mem (by simpa using htarget.not_mem rfl)
  have hclose : ∀ {l : String}, Unmarked l →
      Text.splitAt ']' (l.toList ++ [']']) = [l.toList, []] := fun hl => by
    rw [Text.splitAt_append_cons (hl.not_mem rfl)]
    rfl
  induction labels with
  | nil => exact absurd rfl hne
  | cons label labels ih =>
      have hlabel : Unmarked label := hlabels label List.mem_cons_self
      cases labels with
      -- behind the last label that is read stands the body, up to the bracket of the target
      | nil =>
          have hfront : '[' ∉ label.toList ++ ']' :: body.toList := by
            simp [hlabel.not_mem (c := '[') rfl, hbody.not_mem (c := '[') rfl]
          have hcut : Text.splitAt ']' (label.toList ++ ']' :: body.toList) =
              [label.toList, body.toList] := by
            rw [Text.splitAt_append_cons (hlabel.not_mem rfl),
              Text.splitAt_of_not_mem (hbody.not_mem rfl)]
          rw [afterBracket, ← List.cons_append, ← List.append_assoc,
            Text.splitAt_append_cons hfront, hlast, List.map_cons, List.map_singleton, hcut,
            hclose htarget]
          simp [ofPieces?]
      -- behind every other label comes the bracket of the next one
      | cons next labels =>
          have hfront : '[' ∉ label.toList ++ [']'] := by
            simp [hlabel.not_mem (c := '[') rfl]
          have hrest := ih (fun l hl => hlabels l (List.mem_cons_of_mem _ hl)) (by simp)
          have hshape : afterBracket (label :: next :: labels) body target =
              (label.toList ++ [']']) ++ '[' :: afterBracket (next :: labels) body target := by
            simp [afterBracket]
          rw [hshape, Text.splitAt_append_cons hfront, List.map_cons, hclose hlabel,
            ofPieces?_cons hrest, String.ofList_toList]

theorem Clean.ofChars?_text {s : Segment} (h : s.Clean) : ofChars? s.text.toList = some s := by
  have hopen := Text.splitAt_append_cons (List.not_mem_nil (a := '['))
    (afterBracket s.reads s.body s.defines)
  rw [List.nil_append] at hopen
  rw [toList_text h.nonempty, ofChars?, hopen]
  exact ofPieces?_afterBracket h.reads h.nonempty h.body h.defines

end Segment

def readGraph (g : String) : Option (List Segment) :=
  (Text.splitAt ';' g.toList).mapM Segment.ofChars?

theorem Segment.Clean.not_mem_text {s : Segment} (h : s.Clean) : ';' ∉ s.text.toList := by
  have hread : ∀ l ∈ s.reads, ';' ∉ (bracketed l).toList := fun l hl => by
    simpa [Segment.toList_bracketed] using (h.reads l hl).not_mem (c := ';') rfl
  have hdefines : ';' ∉ (bracketed s.defines).toList := by
    simpa [Segment.toList_bracketed] using h.defines.not_mem (c := ';') rfl
  rw [Segment.text, String.toList_append, String.toList_append, String.toList_join,
    List.mem_append, List.mem_append, not_or, not_or]
  refine ⟨⟨?_, h.body.not_mem rfl⟩, hdefines⟩
  intro hmem
  obtain ⟨t, ht, hc⟩ := List.mem_flatMap.mp hmem
  obtain ⟨l, hl, rfl⟩ := List.mem_map.mp ht
  exact hread l hl hc

/-- A graph of clean segments is read back. -/
theorem readGraph_graphText {segments : List Segment} (hne : segments ≠ [])
    (h : ∀ s ∈ segments, s.Clean) : readGraph (graphText segments) = some segments := by
  have hsplit : Text.splitAt ';' (graphText segments).toList =
      segments.map fun s => s.text.toList := by
    rw [graphText, String.toList_intercalate, Text.splitAt_eq_splitOn, List.map_map]
    refine List.splitOn_intercalate ';' ?_ (by simpa using hne)
    intro cs hcs
    obtain ⟨s, hs, rfl⟩ := List.mem_map.mp hcs
    exact (h s hs).not_mem_text
  rw [readGraph, hsplit, Fallible.mapM_eq_some, List.map_map]
  exact List.map_congr_left fun s hs => (h s hs).ofChars?_text

end Soundworks
