import HtmlQuery.Cli.Outline
import HtmlQuery.Proofs.Tree.DocumentOrder

/-! The tree dump, line by line: one line per node exactly when no node prints a line feed as it is. -/
namespace HtmlQuery

/-- What the dump prints of a node as it is holds no line feed. -/
def NodeData.SingleLine : NodeData → Prop
  | .element e => '\n' ∉ e.tag.toList ∧
      ∀ a ∈ e.attrs.entries, '\n' ∉ a.1.toList ∧ '\n' ∉ a.2.asText.toList
  | .text _ => True
  | .comment s | .declaration s => '\n' ∉ s.toList

instance : DecidablePred NodeData.SingleLine
  | .element _ => inferInstanceAs (Decidable (_ ∧ _))
  | .text _ => inferInstanceAs (Decidable True)
  | .comment _ | .declaration _ => inferInstanceAs (Decidable (_ ∉ _))

namespace Tree

/-- A node as a walk meets it: the node, its level, and what it holds. -/
structure Visit where
  id : NodeId
  level : Nat
  data : NodeData
deriving DecidableEq, Repr

/-- The nodes of the subtree at `id` in pre-order, with their levels. -/
def visitsUpTo (t : Tree) : Nat → Nat → NodeId → List Visit
  | 0, _, _ => []
  | fuel + 1, level, id =>
    match t.get? id with
    | none => []
    | some n => ⟨id, level, n.data⟩ :: n.children.toList.flatMap (t.visitsUpTo fuel (level + 1))

def visitsFrom (t : Tree) (level : Nat) (id : NodeId) : List Visit := t.visitsUpTo t.size level id

namespace WellFormed

variable {t : Tree} (h : t.WellFormed)
include h

theorem mem_visitsUpTo {v : Visit} : ∀ {k level : Nat} {n : NodeId}, v ∈ t.visitsUpTo k level n →
    (v.id = n ∨ t.Ancestor n v.id) ∧ t.data? v.id = some v.data ∧
      (t.ancestors v.id).length + level = (t.ancestors n).length + v.level := by
  intro k
  induction k with
  | zero => simp [visitsUpTo]
  | succ k ih =>
    intro level n hv
    simp only [visitsUpTo] at hv
    split at hv
    · cases hv
    · next x hx =>
      rcases List.mem_cons.mp hv with rfl | hv
      · exact ⟨.inl rfl, by simp [data?, hx], rfl⟩
      · obtain ⟨c, hc, hvc⟩ := List.mem_flatMap.mp hv
        have hcn : c ∈ t.children n := by simp [children, hx, hc]
        obtain ⟨hbelow, hdata, hlevel⟩ := ih hvc
        have := h.length_ancestors_child hcn
        exact ⟨.inr (Ancestor.of_below_child ((h.mem_children_iff c n).mp hcn) hbelow), hdata,
          by omega⟩

theorem visitsUpTo_succ : ∀ (k level : Nat) (n : NodeId), t.size ≤ k + (t.ancestors n).length →
    t.visitsUpTo (k + 1) level n = t.visitsUpTo k level n := by
  intro k
  induction k with
  | zero =>
    intro level n hk
    cases hn : t.get? n with
    | none => simp [visitsUpTo, hn]
    | some x =>
      have := h.length_ancestors_lt (lt_size_of_get? hn)
      omega
  | succ k ih =>
    intro level n hk
    simp only [visitsUpTo]
    split
    · rfl
    · next x hx =>
      congr 1
      refine List.flatMap_congr fun c hc => ih _ c ?_
      have hcn : c ∈ t.children n := by simp [children, hx, hc]
      rw [h.length_ancestors_child hcn]
      omega

theorem visitsFrom_eq (level : Nat) (n : NodeId) :
    t.visitsFrom level n = match t.get? n with
      | none => []
      | some x => ⟨n, level, x.data⟩ :: x.children.toList.flatMap (t.visitsFrom (level + 1)) := by
  obtain ⟨k, hk⟩ : ∃ k, t.size = k + 1 := ⟨t.size - 1, by have := h.size_pos; omega⟩
  rw [visitsFrom, hk, visitsUpTo]
  split
  · rfl
  · next x hx =>
    congr 1
    refine List.flatMap_congr fun c hc => ?_
    have hcn : c ∈ t.children n := by simp [children, hx, hc]
    have hc1 : 1 ≤ (t.ancestors c).length := by rw [h.length_ancestors_child hcn]; omega
    rw [visitsFrom, hk, h.visitsUpTo_succ k _ c (by omega)]

theorem nodup_visitsUpTo : ∀ (k level : Nat) (n : NodeId), ((t.visitsUpTo k level n).map (·.id)).Nodup := by
  intro k
  induction k with
  | zero => simp [visitsUpTo]
  | succ k ih =>
    intro level n
    simp only [visitsUpTo]
    split
    · exact List.nodup_nil
    · next x hx =>
      have hbelow : ∀ c ∈ x.children.toList, ∀ v ∈ t.visitsUpTo k (level + 1) c,
          t.parent? c = some n ∧ (v.id = c ∨ t.Ancestor c v.id) := fun c hc _ hv =>
        ⟨(h.mem_children_iff c n).mp (by simp [children, hx, hc]), (h.mem_visitsUpTo hv).1⟩
      rw [List.map_cons, List.map_flatMap]
      refine List.nodup_cons.mpr ⟨fun hn => ?_, List.nodup_flatMap.mpr ⟨fun c _ => ih _ c, ?_⟩⟩
      · obtain ⟨c, hc, hnc⟩ := List.mem_flatMap.mp hn
        obtain ⟨v, hv, rfl⟩ := List.mem_map.mp hnc
        obtain ⟨hcn, hbel⟩ := hbelow c hc v hv
        exact h.not_below_child hcn hbel
      · have hnodup : x.children.toList.Nodup := by
          simpa [children, hx] using h.children_nodup n
        refine hnodup.pairwise_of_forall_ne fun c hc c' hc' hne y hy hy' => hne ?_
        obtain ⟨v, hv, rfl⟩ := List.mem_map.mp hy
        obtain ⟨v', hv', hvv⟩ := List.mem_map.mp hy'
        obtain ⟨hcn, hyc⟩ := hbelow c hc v hv
        obtain ⟨hcn', hyc'⟩ := hbelow c' hc' v' hv'
        rw [hvv] at hyc'
        exact h.eq_of_below_siblings hcn hcn' hyc hyc'

theorem visitsFrom_child_subset {m c : NodeId} (hc : t.parent? c = some m) (level : Nat) :
    t.visitsFrom (level + 1) c ⊆ t.visitsFrom level m := by
  intro v hv
  have hcm : c ∈ t.children m := (h.mem_children_iff c m).mpr hc
  rw [h.visitsFrom_eq level m]
  cases hm : t.get? m with
  | none => simp [children, hm] at hcm
  | some x =>
    have hcx : c ∈ x.children.toList := by simpa [children, hm] using hcm
    exact List.mem_cons_of_mem _ (List.mem_flatMap.mpr ⟨c, hcx, hv⟩)

theorem exists_visit {n x : NodeId} (hn : n.index < t.size) (hx : x = n ∨ t.Ancestor n x)
    (level : Nat) : ∃ v ∈ t.visitsFrom level n, v.id = x := by
  -- the walk from a node below `n`, at some level, lies in the walk from `n`
  have hsub : ∀ {y : NodeId}, t.Ancestor n y → ∃ l, t.visitsFrom l y ⊆ t.visitsFrom level n := by
    intro y hy
    induction hy with
    | parent hp => exact ⟨level + 1, h.visitsFrom_child_subset hp level⟩
    | up hp _ ih =>
      obtain ⟨l, hl⟩ := ih
      exact ⟨l + 1, fun v hv => hl (h.visitsFrom_child_subset hp l hv)⟩
  have hhead : ∀ (y : NodeId) (l : Nat), y.index < t.size → ∃ v ∈ t.visitsFrom l y, v.id = y := by
    intro y l hy
    cases hz : t.get? y with
    | none =>
      rw [get?_eq_none_iff] at hz
      omega
    | some z => exact ⟨⟨y, l, z.data⟩, by rw [h.visitsFrom_eq, hz]; exact List.mem_cons_self, rfl⟩
  rcases hx with rfl | hx
  · exact hhead x level hn
  · obtain ⟨l, hl⟩ := hsub hx
    have hxs : x.index < t.size := by
      cases hx with
      | parent hp => exact lt_size_of_parent? hp
      | up hp _ => exact lt_size_of_parent? hp
    obtain ⟨v, hv, hvx⟩ := hhead x l hxs
    exact ⟨v, hl hv, hvx⟩

theorem forall_visitsFrom_iff {P : NodeData → Prop} (level : Nat) (n : NodeId) :
    (∀ v ∈ t.visitsFrom level n, P v.data) ↔ ∀ x, (x = n ∨ t.Ancestor n x) → ∀ d ∈ t.data? x, P d := by
  constructor
  · intro hP x hx d hd
    have hn : n.index < t.size := by
      rcases hx with rfl | hx
      · exact lt_size_of_data? hd
      · exact hx.lt_size fun _ _ => h.parent_lt
    obtain ⟨v, hv, rfl⟩ := h.exists_visit hn hx level
    obtain ⟨-, hvd, -⟩ := h.mem_visitsUpTo hv
    rw [hvd] at hd
    cases hd
    exact hP v hv
  · intro hP v hv
    obtain ⟨hbelow, hvd, -⟩ := h.mem_visitsUpTo hv
    exact hP v.id hbelow v.data hvd

end WellFormed
end Tree

namespace Cli
open Style

/-! ## Lines of a text -/

def dropCR (l : List Char) : List Char := if l.getLast? = some '\r' then l.dropLast else l

/-- The lines of `s`, when `cur` has been read of the line it goes on. -/
def linesFrom (cur : List Char) : List Char → List (List Char)
  | [] => if cur.isEmpty then [] else [cur]
  | c :: s => if c = '\n' then dropCR cur :: linesFrom [] s else linesFrom (cur ++ [c]) s

/-- The lines of a text, as a line reader cuts it. -/
def lines (s : String) : List String := (linesFrom [] s.toList).map String.ofList

theorem linesFrom_append {cur l : List Char} (hl : '\n' ∉ l) (s : List Char) :
    linesFrom cur (l ++ s) = linesFrom (cur ++ l) s := by
  induction l generalizing cur with
  | nil => simp
  | cons c l ih =>
    have hc : c ≠ '\n' := fun he => hl (he ▸ List.mem_cons_self)
    rw [List.cons_append, linesFrom, if_neg hc, ih fun he => hl (List.mem_cons_of_mem _ he),
      List.append_assoc, List.singleton_append]

theorem linesFrom_flatMap {ls : List (List Char)}
    (h : ∀ l ∈ ls, '\n' ∉ l ∧ l.getLast? ≠ some '\r') : linesFrom [] (ls.flatMap (· ++ ['\n'])) = ls := by
  induction ls with
  | nil => rfl
  | cons l ls ih =>
    obtain ⟨hn, hr⟩ := h l List.mem_cons_self
    rw [List.flatMap_cons, List.append_assoc, linesFrom_append hn, List.nil_append,
      List.singleton_append, linesFrom, if_pos rfl, dropCR, if_neg hr,
      ih fun l' hl' => h l' (List.mem_cons_of_mem _ hl')]

theorem not_mem_linesFrom {cur : List Char} (hc : '\n' ∉ cur) (s : List Char) :
    ∀ l ∈ linesFrom cur s, '\n' ∉ l := by
  induction s generalizing cur with
  | nil =>
    intro l hl
    by_cases he : cur.isEmpty
    · simp [linesFrom, he] at hl
    · simp only [linesFrom, he, Bool.false_eq_true, if_false, List.mem_singleton] at hl
      exact hl ▸ hc
  | cons c s ih =>
    intro l hl
    by_cases hn : c = '\n'
    · simp only [linesFrom, if_pos hn, List.mem_cons] at hl
      rcases hl with rfl | hl
      · unfold dropCR
        split
        · exact fun he => hc ((List.dropLast_sublist _).subset he)
        · exact hc
      · exact ih List.not_mem_nil l hl
    · simp only [linesFrom, if_neg hn] at hl
      exact ih (by simp [hc, Ne.symm hn]) l hl

/-! ## The line of a node -/

/-- A style puts around a text pieces that hold no line feed. -/
def Wraps (style : String → String) : Prop :=
  ∀ s, ∃ pre post : String, style s = pre ++ s ++ post ∧ '\n' ∉ pre.toList ∧ '\n' ∉ post.toList ∧
    post.toList.getLast? ≠ some '\r'

/-- Every style of the palette wraps its text. -/
structure Palette.Lawful (p : Palette) : Prop where
  tag : Wraps p.tag
  attrName : Wraps p.attrName
  attrValue : Wraps p.attrValue
  text : Wraps p.text
  comment : Wraps p.comment
  declaration : Wraps p.declaration

namespace Wraps

variable {style : String → String} (h : Wraps style)
include h

theorem mem_iff (s : String) : '\n' ∈ (style s).toList ↔ '\n' ∈ s.toList := by
  obtain ⟨pre, post, hs, hpre, hpost, -⟩ := h s
  simp [hs, hpre, hpost]

theorem getLast?_ne {s : String} (hs : ∃ c, s.toList.getLast? = some c ∧ c ≠ '\r') :
    ∃ c, (style s).toList.getLast? = some c ∧ c ≠ '\r' := by
  obtain ⟨pre, post, he, -, -, hpost⟩ := h s
  obtain ⟨c, hc, hcr⟩ := hs
  rw [he, String.toList_append, String.toList_append, List.getLast?_append, List.getLast?_append, hc]
  cases hl : post.toList.getLast? with
  | none => exact ⟨c, rfl, hcr⟩
  | some d => exact ⟨d, rfl, fun hd => hpost (hd ▸ hl)⟩

end Wraps

theorem wraps_colour {code : String} (hc : '\n' ∉ code.toList) : Wraps (colour code) :=
  fun s => ⟨"\x1b[" ++ code ++ "m", "\x1b[39m", rfl, by simp [hc], by decide, by decide⟩

theorem wraps_dimmed : Wraps dimmed :=
  fun s => ⟨"\x1b[2m", "\x1b[0m", rfl, by decide, by decide, by decide⟩

theorem Palette.lawful_terminal : Palette.terminal.Lawful where
  tag := wraps_colour (by decide)
  attrName := wraps_colour (by decide)
  attrValue := wraps_colour (by decide)
  text := wraps_dimmed
  comment := wraps_colour (by decide)
  declaration := wraps_colour (by decide)

variable {p : Palette}

/-- The line of a visited node: two spaces per level, then the node's line. -/
def visitLine (p : Palette) (v : Tree.Visit) : String :=
  String.ofList (List.replicate (2 * v.level) ' ') ++ nodeLine p v.data

theorem getLast?_nodeLine (hp : p.Lawful) (d : NodeData) :
    ∃ c, (nodeLine p d).toList.getLast? = some c ∧ c ≠ '\r' := by
  cases d with
  | element e =>
    refine ⟨'>', ?_, by decide⟩
    rw [nodeLine, String.toList_append, List.getLast?_append]
    rfl
  | text s => exact hp.text.getLast?_ne ⟨'"', by simp [List.getLast?_cons], by decide⟩
  | comment s => exact hp.comment.getLast?_ne ⟨'>', by simp [List.getLast?_cons], by decide⟩
  | declaration s => exact hp.declaration.getLast?_ne ⟨'>', by simp [List.getLast?_cons], by decide⟩

theorem not_mem_visibleText (s : String) : '\n' ∉ (visibleText s).toList := by
  simp only [visibleText, String.toList_ofList, List.mem_flatMap, not_exists, not_and]
  intro c _
  by_cases hn : c = '\n'
  · simp [hn]
  · by_cases hs : c = ' ' <;> simp [hn, hs, Ne.symm hn]

theorem not_mem_nodeLine_iff (hp : p.Lawful) (d : NodeData) :
    '\n' ∉ (nodeLine p d).toList ↔ d.SingleLine := by
  cases d with
  | element e =>
    simp [nodeLine, NodeData.SingleLine, hp.tag.mem_iff, String.toList_join, not_or]
    refine fun _ => forall_congr' fun name => forall_congr' fun v => imp_congr_right fun _ => ?_
    cases v <;> simp [hp.attrName.mem_iff, hp.attrValue.mem_iff, AttrValue.asText]
  | text s => simp [nodeLine, NodeData.SingleLine, hp.text.mem_iff, not_mem_visibleText]
  | comment s => simp [nodeLine, NodeData.SingleLine, hp.comment.mem_iff]
  | declaration s => simp [nodeLine, NodeData.SingleLine, hp.declaration.mem_iff]

theorem not_mem_visitLine_iff (hp : p.Lawful) (v : Tree.Visit) :
    '\n' ∉ (visitLine p v).toList ↔ v.data.SingleLine := by
  rw [← not_mem_nodeLine_iff hp, visitLine, String.toList_append, String.toList_ofList,
    List.mem_append, not_or]
  exact and_iff_right (by simp)

theorem getLast?_visitLine (hp : p.Lawful) (v : Tree.Visit) :
    (visitLine p v).toList.getLast? ≠ some '\r' := by
  obtain ⟨c, hc, hcr⟩ := getLast?_nodeLine hp v.data
  rw [visitLine, String.toList_append, List.getLast?_append, hc]
  exact fun he => hcr (Option.some.inj he)

/-! ## The dump -/

theorem outlineUpTo_toList (p : Palette) (t : Tree) (k level : Nat) (n : NodeId) :
    (outlineUpTo p t k level n).toList =
      (t.visitsUpTo k level n).flatMap fun v => (visitLine p v).toList ++ ['\n'] := by
  induction k generalizing level n with
  | zero => rfl
  | succ k ih =>
    simp only [outlineUpTo, Tree.visitsUpTo]
    cases t.get? n with
    | none => rfl
    | some x =>
      simp only [String.toList_append, String.toList_join, List.flatMap_map, ih, List.flatMap_cons,
        List.flatMap_assoc, visitLine, String.toList_ofList, List.append_assoc]
      rfl

theorem lines_outline_iff (hp : p.Lawful) (t : Tree) (n : NodeId) :
    lines (outline p t n) = (t.visitsFrom 0 n).map (visitLine p) ↔
      ∀ v ∈ t.visitsFrom 0 n, v.data.SingleLine := by
  constructor
  · intro hl v hv
    have hline : visitLine p v ∈ lines (outline p t n) := hl ▸ List.mem_map_of_mem hv
    obtain ⟨l, hl', hlv⟩ := List.mem_map.mp hline
    rw [← not_mem_visitLine_iff hp, ← hlv, String.toList_ofList]
    exact not_mem_linesFrom List.not_mem_nil _ l hl'
  · intro hs
    have hls : ∀ l ∈ (t.visitsFrom 0 n).map fun v => (visitLine p v).toList,
        '\n' ∉ l ∧ l.getLast? ≠ some '\r' := by
      intro l hl
      obtain ⟨v, hv, rfl⟩ := List.mem_map.mp hl
      exact ⟨(not_mem_visitLine_iff hp v).mpr (hs v hv), getLast?_visitLine hp v⟩
    have hflat : (outline p t n).toList =
        ((t.visitsFrom 0 n).map fun v => (visitLine p v).toList).flatMap (· ++ ['\n']) := by
      rw [outline, outlineUpTo_toList, List.flatMap_map]
      rfl
    rw [lines, hflat, linesFrom_flatMap hls, List.map_map]
    exact List.map_congr_left fun v _ => String.ofList_toList

/-- The dump has one line per node of the subtree, in pre-order and indented by level, exactly
when no node prints a line feed as it is. -/
theorem outline_lines (p : Palette) (hp : p.Lawful) (es : List Edit) (n : NodeId) :
    let t := Edit.run es Tree.empty
    (lines (outline p t n) = (t.visitsFrom 0 n).map (visitLine p) ↔
      ∀ x, (x = n ∨ t.Ancestor n x) → ∀ d ∈ t.data? x, d.SingleLine) ∧
    (t.visitsFrom 0 n = match t.get? n with
      | none => []
      | some x => ⟨n, 0, x.data⟩ :: x.children.toList.flatMap (t.visitsFrom 1)) ∧
    ((t.visitsFrom 0 n).map (·.id)).Nodup ∧
    (∀ v ∈ t.visitsFrom 0 n, (v.id = n ∨ t.Ancestor n v.id) ∧ t.data? v.id = some v.data ∧
      (t.ancestors v.id).length = (t.ancestors n).length + v.level) ∧
    (∀ x, n.index < t.size → (x = n ∨ t.Ancestor n x) → ∃ v ∈ t.visitsFrom 0 n, v.id = x) := by
  intro t
  have h : t.WellFormed := Edit.run_wellFormed es Tree.wellFormed_empty
  exact ⟨(lines_outline_iff hp t n).trans (h.forall_visitsFrom_iff 0 n), h.visitsFrom_eq 0 n,
    h.nodup_visitsUpTo _ _ _, fun v hv => by simpa using h.mem_visitsUpTo hv,
    fun x hn hx => h.exists_visit hn hx 0⟩

/-- With the terminal's colours, the dump of a tree that holds only the root is its one line. -/
theorem outline_lines_root :
    Palette.terminal.Lawful ∧
      lines (outline .terminal (Edit.run [] Tree.empty) NodeId.root) =
        ((Edit.run [] Tree.empty).visitsFrom 0 NodeId.root).map (visitLine .terminal) :=
  ⟨Palette.lawful_terminal,
    (outline_lines .terminal Palette.lawful_terminal [] NodeId.root).1.mpr fun x _ d hd => by
      obtain ⟨i⟩ := x
      have hi : i < 1 := Tree.lt_size_of_data? hd
      obtain rfl : i = 0 := by omega
      revert d
      decide⟩

/-- A comment holding a line feed is printed over two lines. -/
theorem outline_comment_two_lines :
    lines (outline .terminal (Html.parseDocument {} "<!--a\nb-->").1 NodeId.root) =
      ["<\x1b[36m:root\x1b[39m>", "  \x1b[90m<!--a", "b-->\x1b[39m"] ∧
    ((Html.parseDocument {} "<!--a\nb-->").1.visitsFrom 0 NodeId.root).map (·.id) = [NodeId.root, ⟨1⟩] := by
  decide +kernel

end Cli
end HtmlQuery
