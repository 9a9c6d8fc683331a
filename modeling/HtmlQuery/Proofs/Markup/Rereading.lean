import HtmlQuery.Proofs.Html.Parsed

/-! Reading back the markup of a forest the builder gives. It reads as a forest with the same
markup unless a tag or attribute name holds a quote, a last flag ends in `/`, or the markup of
some element's children does not close at the element's closing tag. -/
namespace HtmlQuery
open Scan Markup Html

namespace Doc

/-- The search for the closing tag of `tag`, over the markup of `cs` and the closing tag written
after it, stops at that closing tag. -/
def closesAtEnd (tag : String) (cs : List Doc) : Bool :=
  breakBalanced ('<' :: tag.toList) ('<' :: '/' :: tag.toList) 0 ((markupAll cs).toList ++ closeTagChars tag) ==
    some ((markupAll cs).toList,closeTagChars tag)

mutual
/-- The markup of `d` has one reading: no tag or attribute name holds a quote, no element's last
attribute is a flag whose name ends in `/`, and the markup of every element's children closes at
the element's closing tag. -/
def unambiguous : Doc → Bool
  | .element tag attrs cs =>
    !tag.toList.any isQuote && attrs.entries.all (fun p => !p.1.toList.any isQuote) &&
      !attrs.slashFlagLast && closesAtEnd tag cs && unambiguousAll cs
  | _ => true

def unambiguousAll : List Doc → Bool
  | [] => true
  | d :: ds => d.unambiguous && unambiguousAll ds
end

theorem markupAll_keptText (text : List Char) : markupAll (keptText text) = String.ofList text := by
  unfold keptText
  split
  · next h => subst h; rfl
  · simp [markupAll,markup]

theorem markupAll_append (L M : List Doc) : markupAll (L ++ M) = markupAll L ++ markupAll M := by
  induction L with
  | nil => simp [markupAll]
  | cons d L ih => simp [markupAll,ih,String.append_assoc]

theorem unambiguous_element {tag : String} {attrs : Attrs} {cs : List Doc} :
    (Doc.element tag attrs cs).unambiguous = true ↔
      (∀ c ∈ tag.toList, isQuote c = false) ∧ (∀ q ∈ attrs.entries, ∀ c ∈ q.1.toList, isQuote c = false) ∧
        attrs.slashFlagLast = false ∧ closesAtEnd tag cs = true ∧ unambiguousAll cs = true := by
  simp [unambiguous,and_assoc]

/-- An element written with the attributes read back and children of the same markup has the
same markup. -/
theorem markup_element_reread {tag : String} {attrs : Attrs} {cs cs' : List Doc}
    (hcs : markupAll cs' = markupAll cs) (hv : Tags.isVoid tag = false ∨ cs = [] ∧ cs' = []) :
    markup (.element tag (rereadAttrs attrs) cs') = markup (.element tag attrs cs) := by
  rcases hv with hv | ⟨rfl,rfl⟩
  · simp [markup,hv,hcs,openTag_rereadAttrs]
  · simp [markup,openTag_rereadAttrs]

end Doc

namespace Tree

theorem graftAll_append (t : Tree) (p : NodeId) (L M : List Doc) :
    t.graftAll p (L ++ M) = (t.graftAll p L).graftAll p M := by
  induction L generalizing t with
  | nil => rfl
  | cons d L ih => exact ih _

/-- The markup of the plain tree below the root has one reading. -/
def unambiguous (t : Tree) : Bool :=
  match t.view NodeId.root with
  | some (.element _ _ cs) => Doc.unambiguousAll cs
  | _ => false

end Tree

namespace Html

/-! ## The search for a closing tag, extended -/

theorem isPrefixOf_append_of_le {tag s : List Char} (h : tag.length ≤ s.length) (t : List Char) :
    tag.isPrefixOf (s ++ t) = tag.isPrefixOf s := by
  induction tag generalizing s with
  | nil => rfl
  | cons a tag ih =>
    cases s with
    | nil => simp at h
    | cons b s => simp only [List.cons_append,List.isPrefixOf,ih (by simpa using h)]

theorem startsWithTag_append_of_lt {tag s : List Char} (h : tag.length < s.length) (t : List Char) :
    startsWithTag tag (s ++ t) = startsWithTag tag s := by
  unfold startsWithTag
  obtain ⟨c,cs,hcs⟩ : ∃ c cs, s.drop tag.length = c :: cs :=
    List.exists_cons_of_ne_nil (by simp; omega)
  rw [isPrefixOf_append_of_le h.le,List.drop_append_of_le_length h.le,hcs]
  rfl

/-- A search that stops before a text longer than both tags stops there whatever follows. -/
theorem breakBalanced_append_of_lt {o c : List Char} {k : Nat} {s inner rest : List Char}
    (h : breakBalanced o c k s = some (inner,rest)) (ho : o.length < rest.length)
    (hc : c.length < rest.length) (t : List Char) :
    breakBalanced o c k (s ++ t) = some (inner,rest ++ t) := by
  induction s generalizing k inner with
  | nil => simp [breakBalanced] at h
  | cons x xs ih =>
    have hlen : rest.length ≤ (x :: xs).length := (breakBalanced_length_le h).2
    have hsc := startsWithTag_append_of_lt (show c.length < (x :: xs).length by omega) t
    have hso := startsWithTag_append_of_lt (show o.length < (x :: xs).length by omega) t
    rw [List.cons_append] at hsc hso ⊢
    rw [breakBalanced.eq_2] at h ⊢
    rw [hsc,hso]
    split at h
    · split at h
      · obtain ⟨rfl,rfl⟩ := Prod.mk.inj (Option.some.inj h)
        simp [*]
      · obtain ⟨⟨a,b⟩,hab,he⟩ := Option.map_eq_some_iff.mp h
        obtain ⟨rfl,rfl⟩ := Prod.mk.inj he
        simp [*,ih hab]
    · obtain ⟨⟨a,b⟩,hab,he⟩ := Option.map_eq_some_iff.mp h
      obtain ⟨rfl,rfl⟩ := Prod.mk.inj he
      simp [*,ih hab]

theorem breakBalanced_of_closesAtEnd {tag : String} {cs : List Doc} (h : Doc.closesAtEnd tag cs = true)
    (r : List Char) :
    breakBalanced ('<' :: tag.toList) ('<' :: '/' :: tag.toList) 0
      ((Doc.markupAll cs).toList ++ (closeTagChars tag ++ r)) =
        some ((Doc.markupAll cs).toList,closeTagChars tag ++ r) := by
  have h' := beq_iff_eq.mp h
  have hlen : ∀ L : List Char, L.length ≤ tag.toList.length + 2 → L.length < (closeTagChars tag).length :=
    fun L hL => by simp [closeTagChars]; omega
  rw [← List.append_assoc]
  exact breakBalanced_append_of_lt h' (hlen _ (by simp)) (hlen _ (by simp)) r

/-! ## Reading the markup back -/

theorem toList_markup_head {d : Doc} (hd : d.isText = false) : ∃ X, (Doc.markup d).toList = '<' :: X := by
  cases d with
  | element tag attrs cs =>
    rw [toList_markup_element]
    split
    · exact ⟨_,by rw [openTag_toList]⟩
    · exact ⟨_,by rw [openTag_toList,List.cons_append]⟩
  | text s => cases hd
  | comment s => exact ⟨_,toList_markup_comment s⟩
  | declaration s => exact ⟨_,toList_markup_declaration s⟩

/-- A written declaration reads up to its `>` when it leaves no quoted run open, and to the end
when nothing follows it. -/
theorem tagTail_declaration {s r : List Char} (hq : Unquoted (· == '>') none ('!' :: s))
    (hlast : r ≠ [] → runAfter none ('!' :: s) = none) :
    tagTail ('!' :: (s ++ '>' :: r)) = ('!' :: (s ++ ['>']),r) := by
  unfold tagTail
  rw [show '!' :: (s ++ '>' :: r) = ('!' :: s) ++ '>' :: r by simp,breakOutsideQuotes_of_unquoted hq]
  by_cases hr : r = []
  · subst hr
    cases runAfter none ('!' :: s) <;> simp [breakOutsideQuotes,List.isPrefixOf,takeLiteral,Prod.map]
  · rw [hlast hr]
    simp [breakOutsideQuotes,List.isPrefixOf,takeLiteral,Prod.map]

/-- The text before a node, as the builder leads with it: a forest of at most one text with that
text as its markup, when the text is empty or not blank. -/
theorem Draft.lead_graftAll {D : Draft} {p : NodeId} (hD : D.tree.WellFormed) (hp : D.tree.isElement p = true)
    {pending : List Char} (hblank : pending = [] ∨ pending.all isMarkupBlank = false) :
    ∃ L : List Doc, (D.lead p pending).tree = D.tree.graftAll p L ∧
      (D.lead p pending).tree.WellFormed ∧ (D.lead p pending).tree.isElement p = true ∧
      Doc.markupAll L = String.ofList pending := by
  have hlead := Draft.lead_tree hD hp pending
  rcases hblank with rfl | hb
  · exact ⟨[],rfl,hD,hp,rfl⟩
  · rw [if_neg (by simp [hb])] at hlead
    exact ⟨[.text (String.ofList pending)],hlead,hlead ▸ hD.graft _ hp,hlead ▸ Tree.isElement_graft hp _,
      by simp [Doc.markupAll,Doc.markup]⟩

mutual
/-- Reading back the markup of a node other than a text that the builder can give, before the
markup `r` of what follows it in its forest. -/
theorem read_markup : ∀ (d : Doc) {p : NodeId} (dp off : Nat) (r : List Char) (D : Draft),
    D.tree.WellFormed → D.tree.isElement p = true → d.isText = false → d.Parsed dp →
    d.unambiguous = true → (r ≠ [] → ∀ s, d = .declaration s → runAfter none ('!' :: s.toList) = none) →
    ∃ off' D' d', build {} p dp off ((Doc.markup d).toList ++ r) D = build {} p dp off' r D' ∧
      D'.tree = D.tree.graft p d' ∧ Doc.markup d' = Doc.markup d
  | .element tag attrs cs, p, dp, off, r, D, hD, hp, _, hparsed, hu, _ => by
    obtain ⟨hnames,hvoid,hnest⟩ := Doc.parsed_element.mp hparsed
    obtain ⟨htagq,hattrq,hslash,hclose,hcs⟩ := Doc.unambiguous_element.mp hu
    have hattrs : ∀ q ∈ attrs.entries, AttrReadable q := fun q hq => hnames.readable htagq q hq (hattrq q hq)
    obtain ⟨off',off'',h⟩ := build_element_read dp off (hnames.tagReadable htagq) hattrs hslash hnames.sorted
      hvoid r (fun _ => breakBalanced_of_closesAtEnd hclose r) hD hp
    have hatt := Draft.attach_eq_attachNew hD hp (.element (.withAttributes tag (rereadAttrs attrs)))
    obtain ⟨hwf₁,hnode,hgraft⟩ := graft_of_attach hD hp hatt
    cases hv : Tags.isVoid tag
    · -- the content is read as raw text, as text below the depth limit, or as a forest
      rw [hv,if_neg (by decide : ¬ (false = true))] at h
      have hkept : Doc.markup (.element tag (rereadAttrs attrs) (Doc.keptText (Doc.markupAll cs).toList)) =
          Doc.markup (.element tag attrs cs) :=
        Doc.markup_element_reread (by simp [Doc.markupAll_keptText]) (.inl hv)
      unfold Draft.readContent at h
      split at h
      · exact ⟨off',_,_,h,graft_keptText hD hp hatt rfl _,hkept⟩
      · split at h
        · exact ⟨off',_,_,h,graft_keptText hD hp hatt (Draft.report_tree _ _ _ _) _,hkept⟩
        · next hraw hdepth =>
          have hraw' : Tags.mem Tags.rawText tag = false := by simpa [Config.isRawText] using hraw
          have hdepth' : dp + 1 < 512 := by simp at hdepth; omega
          obtain ⟨cs',hcs',hmarkup⟩ := read_markupAll cs (dp + 1) off'' [] _ hwf₁ hnode (by simp) (.inl rfl)
            (hnest hraw' hdepth') hcs
          refine ⟨off',_,.element tag (rereadAttrs attrs) cs',h,?_,
            Doc.markup_element_reread (by simpa using hmarkup) (.inl hv)⟩
          rw [← hgraft]
          simpa using hcs'
    · obtain rfl := hvoid hv
      rw [hv,if_pos (rfl : true = true)] at h
      exact ⟨off',_,.element tag (rereadAttrs attrs) [],h,hgraft [],
        Doc.markup_element_reread rfl (.inr ⟨rfl,rfl⟩)⟩
  | .text _, _, _, _, _, _, _, _, ht, _, _, _ => by cases ht
  | .comment s, p, dp, off, r, D, hD, hp, _, hparsed, _, _ => by
    obtain ⟨off',h⟩ := build_comment {} p dp off (by simpa using Doc.parsed_comment.mp hparsed) r D
    exact ⟨off',_,.comment s,h,Draft.attach_tree hD hp _,rfl⟩
  | .declaration s, p, dp, off, r, D, hD, hp, _, hparsed, _, hlast => by
    obtain ⟨hq,hdash⟩ := Doc.parsed_declaration.mp hparsed
    obtain ⟨off',h⟩ := build_declaration_of_tagTail {} p dp off hdash
      (tagTail_declaration hq fun hr => hlast hr s rfl) D
    exact ⟨off',_,.declaration s,h,Draft.attach_tree hD hp _,rfl⟩

/-- Reading back the markup of a forest the builder can give, after a text `pending` that is
empty or not blank: the texts of the forest join the text before them. -/
theorem read_markupAll : ∀ (F : List Doc) {p : NodeId} (dp off : Nat) (pending : List Char) (D : Draft),
    D.tree.WellFormed → D.tree.isElement p = true → '<' ∉ pending →
    (pending = [] ∨ pending.all isMarkupBlank = false) → Doc.ParsedAll dp F → Doc.unambiguousAll F = true →
    ∃ F', (build {} p dp off (pending ++ (Doc.markupAll F).toList) D).tree = D.tree.graftAll p F' ∧
      Doc.markupAll F' = String.ofList pending ++ Doc.markupAll F
  | [], p, dp, off, pending, D, hD, hp, hlt, hblank, _, _ => by
    obtain ⟨L,hL,-,-,hLm⟩ := Draft.lead_graftAll hD hp hblank
    refine ⟨L,?_,by simp [hLm,Doc.markupAll]⟩
    rw [show (Doc.markupAll []).toList = [] from rfl,List.append_nil,build_of_lt_not_mem _ _ _ _ hlt,hL]
  | d :: ds, p, dp, off, pending, D, hD, hp, hlt, hblank, hparsed, hu => by
    obtain ⟨hd,hlast,hds⟩ := Doc.parsedAll_cons.mp hparsed
    simp only [Doc.unambiguousAll,Bool.and_eq_true] at hu
    cases hdt : d.isText
    · -- the pending text, then `d`, then the rest of the forest
      obtain ⟨X,hX⟩ := toList_markup_head hdt
      have hshape : pending ++ (Doc.markupAll (d :: ds)).toList =
          pending ++ '<' :: (X ++ (Doc.markupAll ds).toList) := by
        rw [toList_markupAll_cons,hX]
        rfl
      obtain ⟨L,hL,hLwf,hLp,hLm⟩ := Draft.lead_graftAll hD hp hblank
      have hnext : (Doc.markupAll ds).toList ≠ [] → ∀ s, d = .declaration s →
          runAfter none ('!' :: s.toList) = none := fun hne => hlast (by rintro rfl; exact hne rfl)
      obtain ⟨off₁,D₁,d',hstep,htree,hmarkup⟩ :=
        read_markup d dp (off + byteSize pending) (Doc.markupAll ds).toList (D.lead p pending) hLwf hLp hdt
          hd hu.1 hnext
      have hwf₁ : D₁.tree.WellFormed := htree ▸ hLwf.graft d' hLp
      have hp₁ : D₁.tree.isElement p = true := htree ▸ Tree.isElement_graft hLp d'
      obtain ⟨F',hF',hmF'⟩ := read_markupAll ds dp off₁ [] D₁ hwf₁ hp₁ (by simp) (.inl rfl) hds hu.2
      refine ⟨L ++ d' :: F',?_,?_⟩
      · rw [hshape,build_lead _ _ _ _ hlt,← List.cons_append,← hX,hstep]
        rw [List.nil_append] at hF'
        rw [hF',htree,hL,Tree.graftAll_append]
        rfl
      · rw [Doc.markupAll_append,hLm]
        simp [Doc.markupAll,hmarkup,hmF']
    · -- a text joins the pending text
      obtain ⟨s,rfl⟩ : ∃ s, d = .text s := by cases d <;> simp_all [Doc.isText]
      obtain ⟨hslt,hsb⟩ := Doc.parsed_text.mp hd
      obtain ⟨F',hF',hmF'⟩ := read_markupAll ds dp off (pending ++ s.toList) D hD hp
        (by simp [hlt,hslt]) (.inr (by simp [hsb])) hds hu.2
      refine ⟨F',?_,?_⟩
      · rw [toList_markupAll_cons,← List.append_assoc]
        exact hF'
      · rw [hmF',String.ofList_append,String.ofList_toList,String.append_assoc]
        rfl
end

end Html

end HtmlQuery
