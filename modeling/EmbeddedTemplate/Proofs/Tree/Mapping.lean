import EmbeddedTemplate.Proofs.Tree.Mentions

namespace EmbeddedTemplate.Tree

mutual

/-- Changes all annotations in a tree, and all sequences that no walk enters. -/
def mapParts (note : Annotation → Annotation) (entry : List Tree → List Tree) : Tree → Tree
  | .call target n args => .call (mapParts note entry target) (note n) (mapAllParts note entry args)
  | .ref target n => .ref (mapParts note entry target) (note n)
  | .pair left right => .pair (mapParts note entry left) (mapParts note entry right)
  | .list items => .list (mapAllParts note entry items)
  | .sealed items => .sealed (entry (mapAllParts note entry items))
  | leaf => leaf

def mapAllParts (note : Annotation → Annotation) (entry : List Tree → List Tree) :
    List Tree → List Tree
  | [] => []
  | t :: ts => mapParts note entry t :: mapAllParts note entry ts

end

variable {note : Annotation → Annotation} {entry : List Tree → List Tree}

theorem mapAllParts_eq_map (ts : List Tree) :
    mapAllParts note entry ts = ts.map (mapParts note entry) := by
  induction ts with
  | nil => rfl
  | cons t ts ih => rw [mapAllParts, ih, List.map_cons]

@[simp] theorem mapParts_eq_str {t : Tree} {s : String} :
    mapParts note entry t = .str s ↔ t = .str s := by
  cases t <;> simp [mapParts]

@[simp] theorem mapParts_eq_int {t : Tree} {n : Int} :
    mapParts note entry t = .int n ↔ t = .int n := by
  cases t <;> simp [mapParts]

theorem OfCode.mapParts_id {t : Tree} (h : t.OfCode) : mapParts id entry t = t := by
  have all {ts : List Tree} (h : ∀ t ∈ ts, mapParts id entry t = t) :
      mapAllParts id entry ts = ts := by
    rw [mapAllParts_eq_map, List.map_congr_left h, List.map_id']
  induction h with
  | @literal t hl => cases t <;> first | rfl | cases hl
  | var => rfl
  | pair _ _ ihl ihr => rw [mapParts, ihl, ihr]
  | list _ ih => rw [mapParts, all ih]
  | named _ _ ih => rw [mapParts, all ih]; rfl
  | dot _ ih => simp only [mapParts, mapAllParts, ih, id]
  | remote _ _ ihd iha => rw [mapParts, ihd, all iha]; rfl

end EmbeddedTemplate.Tree
