import EmbeddedTemplate.Fault
import EmbeddedTemplate.Tree.Basic

namespace EmbeddedTemplate

inductive Mention
  | placeholder (key : Int)
  | stray
deriving DecidableEq, Repr

def Mention.ofCall : List Tree → Mention
  | [.int key] => .placeholder key
  | _ => .stray

namespace Tree

def children : Tree → List Tree
  | .call target _ args => target :: args
  | .ref target _ => [target]
  | .pair left right => [left, right]
  | .list items | .sealed items => items
  | _ => []

/-- What stands at a place, which is given by the way from the root to it. -/
def at? : Tree → List Nat → Option Tree
  | t, [] => some t
  | t, i :: path => t.children[i]?.bind (·.at? path)

def mention? : Tree → Option Mention
  | .call (.str name) _ args =>
    if name = reservedName then some (.ofCall args)
    else match args with
      | [_, .atom method] => if name = "." ∧ method = reservedName then some .stray else none
      | _ => none
  | .ref (.str name) _ => if name = reservedName then some .stray else none
  | _ => none

mutual

def mentions (t : Tree) : List Mention :=
  t.mention?.toList ++ match t with
  | .call target _ args => target.mentions ++ mentionsAll args
  | .ref target _ => target.mentions
  | .pair left right => left.mentions ++ right.mentions
  | .list items | .sealed items => mentionsAll items
  | _ => []

def mentionsAll : List Tree → List Mention
  | [] => []
  | t :: ts => t.mentions ++ mentionsAll ts

end

variable {t u v : Tree} {ts us : List Tree} {m : Mention} {i j : Nat} {p q : List Nat}

theorem mentions_eq (t : Tree) : t.mentions = t.mention?.toList ++ mentionsAll t.children := by
  cases t <;> simp [mentions, mentionsAll, children]

theorem mention?_reserved (note : Annotation) (args : List Tree) :
    (call (.str reservedName) note args).mention? = some (.ofCall args) := by
  simp [mention?]

theorem mention?_named {name : String} (hn : name ≠ reservedName) (hd : name ≠ ".")
    (note : Annotation) (args : List Tree) : (call (.str name) note args).mention? = none := by
  simp only [mention?, if_neg hn]
  split
  · exact if_neg fun h => hd h.1
  · rfl

theorem mention?_dot (owner : Tree) (method : String) (note : Annotation) :
    (call (.str ".") note [owner, .atom method]).mention? =
      if method = reservedName then some .stray else none := by
  have : "." ≠ reservedName := by decide
  simp [mention?, this]

theorem mention?_var (name : String) (note : Annotation) :
    (ref (.str name) note).mention? = if name = reservedName then some .stray else none := rfl

theorem eq_of_ofCall {args : List Tree} {key : Int} (h : Mention.ofCall args = .placeholder key) :
    args = [.int key] := by
  unfold Mention.ofCall at h
  split at h <;> cases h
  rfl

@[simp] theorem mentionsAll_nil : mentionsAll [] = [] := rfl

@[simp] theorem mentionsAll_cons : mentionsAll (t :: ts) = t.mentions ++ mentionsAll ts := rfl

@[simp] theorem mentionsAll_append : mentionsAll (ts ++ us) = mentionsAll ts ++ mentionsAll us := by
  induction ts with
  | nil => rfl
  | cons t ts ih => simp [ih]

theorem mem_mentionsAll : m ∈ mentionsAll ts ↔ ∃ t ∈ ts, m ∈ t.mentions := by
  induction ts with
  | nil => simp
  | cons t ts ih => simp [ih]

theorem mem_mentions_of_mem_children (hu : u ∈ t.children) (hm : m ∈ u.mentions) :
    m ∈ t.mentions := by
  rw [mentions_eq]
  exact List.mem_append_right _ (mem_mentionsAll.2 ⟨u, hu, hm⟩)

theorem mentionsAll_of_getElem? (h : ts[i]? = some t) : mentionsAll ts =
    mentionsAll (ts.take i) ++ (t.mentions ++ mentionsAll (ts.drop (i + 1))) := by
  obtain ⟨hi, rfl⟩ := List.getElem?_eq_some_iff.1 h
  rw [← mentionsAll_cons, ← mentionsAll_append, ← List.drop_eq_getElem_cons hi,
    List.take_append_drop]

theorem count_mentions_of_getElem? (h : ts[i]? = some t) :
    t.mentions.count m ≤ (mentionsAll ts).count m := by
  rw [mentionsAll_of_getElem? h, List.count_append, List.count_append]
  omega

theorem count_mentions_of_lt (hij : i < j) (hi : ts[i]? = some t) (hj : ts[j]? = some u) :
    t.mentions.count m + u.mentions.count m ≤ (mentionsAll ts).count m := by
  have hd : (ts.drop (i + 1))[j - (i + 1)]? = some u := by
    rw [List.getElem?_drop, ← hj]
    congr 1
    omega
  have := count_mentions_of_getElem? (m := m) hd
  rw [mentionsAll_of_getElem? hi, List.count_append, List.count_append]
  omega

theorem mem_mentions_of_at? (h : t.at? p = some u) (hm : u.mention? = some m) :
    m ∈ t.mentions := by
  induction p generalizing t with
  | nil =>
    cases h
    simp [mentions_eq, hm]
  | cons i p ih =>
    obtain ⟨c, hc, h⟩ := Option.bind_eq_some_iff.1 h
    rw [mentions_eq]
    exact List.mem_append_right _ (mem_mentionsAll.2 ⟨c, List.mem_of_getElem? hc, ih h⟩)

theorem sizeOf_lt_of_mem_children (h : u ∈ t.children) : sizeOf u < sizeOf t := by
  cases t with
  | call target note args =>
    obtain rfl | h := List.mem_cons.1 h
    · simp only [call.sizeOf_spec]
      omega
    · have := List.sizeOf_lt_of_mem h
      simp only [call.sizeOf_spec]
      omega
  | ref target note =>
    cases List.mem_singleton.1 h
    simp only [ref.sizeOf_spec]
    omega
  | pair left right =>
    simp only [pair.sizeOf_spec]
    obtain rfl | rfl : u = left ∨ u = right := by simpa [children] using h
    all_goals omega
  | list items | «sealed» items =>
    have : sizeOf u < sizeOf items := List.sizeOf_lt_of_mem h
    simp only [list.sizeOf_spec, sealed.sizeOf_spec]
    omega
  | _ => cases h

theorem exists_at?_of_mem_mentions (t : Tree) (h : m ∈ t.mentions) :
    ∃ p u, t.at? p = some u ∧ u.mention? = some m := by
  rw [mentions_eq] at h
  obtain h | h := List.mem_append.1 h
  · exact ⟨[], t, rfl, by simpa using h⟩
  · obtain ⟨c, hc, h⟩ := mem_mentionsAll.1 h
    obtain ⟨p, u, hp, hu⟩ := exists_at?_of_mem_mentions c h
    obtain ⟨i, hi⟩ := List.mem_iff_getElem?.1 hc
    exact ⟨i :: p, u, by rw [at?, hi]; exact hp, hu⟩
termination_by sizeOf t
decreasing_by exact sizeOf_lt_of_mem_children hc

theorem at?_unique (h : t.mentions.count m ≤ 1) (hp : t.at? p = some u) (hu : u.mention? = some m)
    (hq : t.at? q = some v) (hv : v.mention? = some m) : p = q := by
  have hpos {t u : Tree} {p : List Nat} (h : t.at? p = some u) (hm : u.mention? = some m) :
      0 < t.mentions.count m := List.count_pos_iff.2 (mem_mentions_of_at? h hm)
  -- Where the two ways part, the mention would be counted twice.
  induction p generalizing t q with
  | nil =>
    cases hp
    cases q with
    | nil => rfl
    | cons j q =>
      obtain ⟨c, hc, hq⟩ := Option.bind_eq_some_iff.1 hq
      have := count_mentions_of_getElem? (m := m) hc
      have := hpos hq hv
      rw [mentions_eq, List.count_append, hu, Option.toList_some, List.count_singleton_self] at h
      omega
  | cons i p ih =>
    obtain ⟨c, hc, hcp⟩ := Option.bind_eq_some_iff.1 hp
    cases q with
    | nil =>
      cases hq
      have := count_mentions_of_getElem? (m := m) hc
      have := hpos hcp hu
      rw [mentions_eq, List.count_append, hv, Option.toList_some, List.count_singleton_self] at h
      omega
    | cons j q =>
      obtain ⟨d, hd, hq⟩ := Option.bind_eq_some_iff.1 hq
      rw [mentions_eq, List.count_append] at h
      have := hpos hcp hu
      have := hpos hq hv
      rcases Nat.lt_trichotomy i j with hij | rfl | hij
      · have := count_mentions_of_lt (m := m) hij hc hd
        omega
      · obtain rfl := Option.some.inj (hc.symm.trans hd)
        have := count_mentions_of_getElem? (m := m) hc
        rw [ih (by omega) hcp hq]
      · have := count_mentions_of_lt (m := m) hij hd hc
        omega

def isLiteral : Tree → Bool
  | .nil | .bool _ | .int _ | .float _ | .str _ | .atom _ => true
  | _ => false

/-- The trees that code stands for: nothing is sealed, and a point has an owner and a name. -/
inductive OfCode : Tree → Prop
  | literal {tree} : tree.isLiteral → OfCode tree
  | var {name note} : OfCode (.ref (.str name) note)
  | pair {left right} : OfCode left → OfCode right → OfCode (.pair left right)
  | list {items} : (∀ t ∈ items, OfCode t) → OfCode (.list items)
  | named {name note args} : name ≠ "." → (∀ t ∈ args, OfCode t) →
      OfCode (.call (.str name) note args)
  | dot {owner method note} : OfCode owner → OfCode (.call (.str ".") note [owner, .atom method])
  | remote {owner method dotNote note args} :
      OfCode (.call (.str ".") dotNote [owner, .atom method]) → (∀ t ∈ args, OfCode t) →
      OfCode (.call (.call (.str ".") dotNote [owner, .atom method]) note args)

@[simp] theorem mentions_str (s : String) : (str s).mentions = [] := rfl

@[simp] theorem mentions_atom (name : String) : (atom name).mentions = [] := rfl

@[simp] theorem mentions_int (n : Int) : (int n).mentions = [] := rfl

@[simp] theorem mentions_pair (left right : Tree) :
    (pair left right).mentions = left.mentions ++ right.mentions := rfl

@[simp] theorem mentions_list (items : List Tree) : (list items).mentions = mentionsAll items := rfl

@[simp] theorem mentions_sealed (items : List Tree) :
    («sealed» items).mentions = mentionsAll items := rfl

theorem mentions_named {name : String} (hn : name ≠ reservedName) (hd : name ≠ ".")
    (note : Annotation) (args : List Tree) :
    (named name args note).mentions = mentionsAll args := by
  rw [mentions_eq, named, mention?_named hn hd]
  rfl

theorem mentions_var {name : String} (hn : name ≠ reservedName) (note : Annotation) :
    (var name note).mentions = [] := by
  rw [mentions_eq, var, mention?_var, if_neg hn]
  rfl

theorem mentions_remote {name : String} (hn : name ≠ reservedName) (owner : Tree) (args : List Tree)
    (note : Annotation) :
    (remote owner name args note).mentions = owner.mentions ++ mentionsAll args := by
  have hdot : (named "." [owner, .atom name] note).mentions = owner.mentions := by
    rw [mentions_eq, named, mention?_dot, if_neg hn]
    simp [children]
  rw [remote, mentions_eq, children, mentionsAll_cons, hdot]
  rfl

theorem mentions_of_isLiteral (h : t.isLiteral) : t.mentions = [] := by
  cases t <;> first | rfl | cases h

end Tree

end EmbeddedTemplate
