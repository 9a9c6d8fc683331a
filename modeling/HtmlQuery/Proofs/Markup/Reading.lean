import HtmlQuery.Proofs.Markup.Balanced
import HtmlQuery.Proofs.Markup.Graft

/-! The builder reading the markup of a canonical forest: it grafts the forest and reports nothing. -/
namespace HtmlQuery
namespace Html
open Scan Markup

/-- The draft after the text before a tag: blank text is dropped. -/
def Draft.lead (d : Draft) (p : NodeId) (text : List Char) : Draft :=
  if text.all isMarkupBlank then d else (d.attach p (.text (String.ofList text))).1

theorem breakAt_lt {lead : List Char} (h : '<' ∉ lead) (X : List Char) :
    breakAt ['<'] (lead ++ '<' :: X) = (lead,'<' :: X) := by
  induction lead with
  | nil => simp [breakAt,List.isPrefixOf]
  | cons c cs ih =>
    have hc : c ≠ '<' := fun he => h (he ▸ List.mem_cons_self)
    simp [breakAt,List.isPrefixOf,Ne.symm hc,ih (fun hm => h (List.mem_cons_of_mem _ hm))]

theorem breakAt_of_lt_not_mem {s : List Char} (h : '<' ∉ s) : breakAt ['<'] s = (s,[]) := by
  induction s with
  | nil => rfl
  | cons c cs ih =>
    have hc : c ≠ '<' := fun he => h (he ▸ List.mem_cons_self)
    simp [breakAt,List.isPrefixOf,Ne.symm hc,ih (fun hm => h (List.mem_cons_of_mem _ hm))]

theorem breakAt_commentEnd {s : List Char} (h : ¬ ['-','-','>'] <:+: s) (r : List Char) :
    breakAt ['-','-','>'] (s ++ '-' :: '-' :: '>' :: r) = (s,'-' :: '-' :: '>' :: r) := by
  induction s with
  | nil => rfl
  | cons c cs ih =>
    have hcs : ¬ ['-','-','>'] <:+: cs := fun hi => h (hi.trans (List.suffix_cons c cs).isInfix)
    have hpre : ['-','-','>'].isPrefixOf (c :: (cs ++ '-' :: '-' :: '>' :: r)) = false := by
      match cs with
      | [] => simp [List.isPrefixOf]
      | [x] => simp [List.isPrefixOf]
      | x :: y :: rest =>
        cases hp : ['-','-','>'].isPrefixOf (c :: x :: y :: (rest ++ '-' :: '-' :: '>' :: r)) with
        | false => simpa using hp
        | true =>
          simp only [List.isPrefixOf,Bool.and_eq_true,beq_iff_eq] at hp
          obtain ⟨rfl,rfl,rfl,-⟩ := hp
          exact absurd (List.prefix_append ['-','-','>'] rest).isInfix h
    simp only [List.cons_append,breakAt,hpre,Bool.false_eq_true,if_false,ih hcs]

theorem build_lead (cfg : Config) (p : NodeId) (dp off : Nat) {lead : List Char}
    (hlead : '<' ∉ lead) (X : List Char) (D : Draft) :
    build cfg p dp off (lead ++ '<' :: X) D =
      build cfg p dp (off + byteSize lead) ('<' :: X) (D.lead p lead) := by
  have hb := breakAt_lt hlead X
  have hb0 := breakAt_lt List.not_mem_nil X
  rw [List.nil_append] at hb0
  obtain ⟨c,cs,hcs⟩ : ∃ c cs, lead ++ '<' :: X = c :: cs := by
    cases lead <;> exact ⟨_,_,rfl⟩
  rw [hcs,build.eq_2,← hcs,hb,build.eq_2,hb0]
  rfl

theorem build_of_lt_not_mem (cfg : Config) (p : NodeId) (dp off : Nat) {lead : List Char}
    (hlead : '<' ∉ lead) (D : Draft) : build cfg p dp off lead D = D.lead p lead := by
  cases lead with
  | nil => rw [build.eq_1]; rfl
  | cons c cs =>
    have hb := breakAt_of_lt_not_mem hlead
    rw [build.eq_2]
    split
    · next heq => rw [hb] at heq; cases heq
    · next heq => rw [hb] at heq; cases heq
    · rw [hb]; rfl

theorem breakAt_lt_cons (X : List Char) : breakAt ['<'] ('<' :: X) = ([],'<' :: X) :=
  breakAt_lt List.not_mem_nil X

theorem build_comment (cfg : Config) (p : NodeId) (dp off : Nat) {s : String}
    (hend : ¬ ['-','-','>'] <:+: s.toList) (r : List Char) (D : Draft) :
    ∃ off', build cfg p dp off ((Doc.markup (.comment s)).toList ++ r) D =
      build cfg p dp off' r (D.attach p (.comment s)).1 := by
  have hlit : "-->".toList = ['-','-','>'] := rfl
  have hbody := breakAt_commentEnd hend r
  rw [toList_markup_comment,hlit,List.cons_append,build.eq_2,breakAt_lt_cons]
  split
  · next body heq =>
    simp only [List.cons_append,List.cons.injEq,true_and] at heq
    subst heq
    simp only [hlit,List.append_assoc,List.cons_append,List.nil_append,hbody]
    have hclosed : ['-','-','>'].isPrefixOf ('-' :: '-' :: '>' :: r) = true := by
      simp [List.isPrefixOf]
    rw [if_pos hclosed,String.ofList_toList]
    exact ⟨_,rfl⟩
  · next tail hnc heq =>
    simp only [List.cons.injEq,true_and] at heq
    subst heq
    exact (hnc (s.toList ++ '-' :: '-' :: '>' :: r) (by simp)).elim
  · next _ hnc => exact (hnc _ rfl).elim

theorem ne_dashes {s : List Char} (h : "--".toList.isPrefixOf s = false) (r body : List Char) :
    s ++ '>' :: r ≠ '-' :: '-' :: body := by
  match s with
  | [] => simp
  | [a] => simp
  | a :: b :: rest =>
    intro he
    simp only [List.cons_append,List.cons.injEq] at he
    obtain ⟨rfl,rfl,-⟩ := he
    simp [List.isPrefixOf] at h

/-- A written declaration whose `>` the scan finds right after its content: the builder attaches it
and goes on after it. -/
theorem build_declaration_of_tagTail (cfg : Config) (p : NodeId) (dp off : Nat) {s : String}
    (hdash : "--".toList.isPrefixOf s.toList = false) {r : List Char}
    (htt : tagTail ('!' :: (s.toList ++ '>' :: r)) = ('!' :: (s.toList ++ ['>']),r)) (D : Draft) :
    ∃ off', build cfg p dp off ((Doc.markup (.declaration s)).toList ++ r) D =
      build cfg p dp off' r (D.attach p (.declaration s)).1 := by
  rw [toList_markup_declaration]
  simp only [List.cons_append,List.append_assoc,List.nil_append]
  rw [build.eq_2,breakAt_lt_cons]
  split
  · next body heq =>
    simp only [List.cons.injEq,true_and] at heq
    exact (ne_dashes hdash r body heq).elim
  · next tail hnc heq =>
    simp only [List.cons.injEq,true_and] at heq
    subst heq
    dsimp only
    rw [if_neg (by simp),if_pos (by simp),htt]
    have hlast : ('<' :: '!' :: (s.toList ++ ['>'])).getLast? = some '>' := by
      rw [← List.cons_append,← List.cons_append,List.getLast?_concat]
    have hcontent : (List.drop 2 ('<' :: '!' :: (s.toList ++ ['>']))).dropLast = s.toList := by simp
    rw [hlast,beq_self_eq_true,if_pos rfl,hcontent,String.ofList_toList]
    exact ⟨_,rfl⟩
  · next _ hnc => exact (hnc _ rfl).elim

theorem build_declaration (cfg : Config) (p : NodeId) (dp off : Nat) {s : String}
    (hs : ∀ c ∈ s.toList, c ≠ '>' ∧ isQuote c = false) (hdash : "--".toList.isPrefixOf s.toList = false)
    (r : List Char) (D : Draft) :
    ∃ off', build cfg p dp off ((Doc.markup (.declaration s)).toList ++ r) D =
      build cfg p dp off' r (D.attach p (.declaration s)).1 := by
  have hskip : Skips '>' ('!' :: s.toList) := skips_of_forall fun c hc => by
    rcases List.mem_cons.mp hc with rfl | hc
    · exact ⟨by decide,by decide⟩
    · exact hs c hc
  exact build_declaration_of_tagTail cfg p dp off hdash (by simpa using tagTail_of_skips hskip r) D

theorem tagTail_closeTagChars {tag : String} (htag : TagReadable tag.toList) (r : List Char) :
    tagTail (closeTagChars tag ++ r) = (closeTagChars tag,r) := by
  have hskip : Skips '>' ('<' :: '/' :: tag.toList) := skips_of_forall fun c hc => by
    rcases List.mem_cons.mp hc with rfl | hc
    · exact ⟨by decide,by decide⟩
    rcases List.mem_cons.mp hc with rfl | hc
    · exact ⟨by decide,by decide⟩
    exact ⟨(htag.plain c hc).1,(htag.plain c hc).2.2.2⟩
  simpa [closeTagChars] using tagTail_of_skips hskip r

/-- What the builder does with the markup `inner` between the tags of an element `tag` it has
attached as `node` at `depth`: raw text and text below the depth limit are kept as one text, and
anything else is built under the element. -/
def Draft.readContent (d : Draft) (depth : Nat) (tag : String) (node : NodeId) (span : List Char)
    (start off : Nat) (inner : List Char) : Draft :=
  if ({} : Config).isRawText tag then d.attachText node inner
  else if depth + 1 ≥ ({} : Config).maxDepth then (d.report .depthLimit span start).attachText node inner
  else build {} node (depth + 1) off inner d

/-- The builder reading a written element whose names read back: it attaches the element, with
the attributes read back, and reads the children's markup as the content of its tag. -/
theorem build_element_read {p : NodeId} (dp off : Nat) {tag : String} {attrs : Attrs} {cs : List Doc}
    (htag : TagReadable tag.toList) (hattrs : ∀ q ∈ attrs.entries, AttrReadable q)
    (hslash : attrs.slashFlagLast = false) (hsorted : attrs.Sorted)
    (hvoid : Tags.isVoid tag = true → cs = []) (r : List Char)
    (hbal : Tags.isVoid tag = false → breakBalanced ('<' :: tag.toList) ('<' :: '/' :: tag.toList) 0
      ((Doc.markupAll cs).toList ++ (closeTagChars tag ++ r)) = some ((Doc.markupAll cs).toList,closeTagChars tag ++ r))
    {D : Draft} (hD : D.tree.WellFormed) (hp : D.tree.isElement p = true) :
    ∃ off' off'', build {} p dp off ((Doc.markup (.element tag attrs cs)).toList ++ r) D =
      build {} p dp off' r (if Tags.isVoid tag then ⟨D.tree.attachNew p (.element (.withAttributes tag (rereadAttrs attrs))),D.issues⟩
        else Draft.readContent ⟨D.tree.attachNew p (.element (.withAttributes tag (rereadAttrs attrs))),D.issues⟩
          dp tag ⟨D.tree.size⟩ (openTag (.withAttributes tag attrs)).toList off off'' (Doc.markupAll cs).toList) := by
  have hO : (openTag (.withAttributes tag attrs)).toList = '<' :: (openTag (.withAttributes tag attrs)).toList.tail := by
    rw [openTag_toList]
    rfl
  have hattrs' : ∀ q ∈ (Element.withAttributes tag attrs).attrs.entries, AttrReadable q := hattrs
  have hname : ∀ rest, tagName ((openTag (.withAttributes tag attrs)).toList.tail ++ rest) = tag.toList :=
    tagName_openTag htag
  have htail : ∀ rest, tagTail ((openTag (.withAttributes tag attrs)).toList.tail ++ rest) =
      ((openTag (.withAttributes tag attrs)).toList.tail,rest) := tagTail_openTag htag hattrs'
  have hself : ((openTag (.withAttributes tag attrs)).toList.reverse.take 2 == ['>','/']) = false :=
    openTag_not_selfClosing htag hattrs' hslash
  have hnonempty : tag.toList.isEmpty = false := by simpa using htag.ne_nil
  have hparse : parseAttributes (openTag (.withAttributes tag attrs)).toList = rereadAttrs attrs :=
    parseAttributes_openTag htag hattrs' hslash hsorted
  have hattach := Html.Draft.attach_eq_attachNew hD hp (.element (.withAttributes tag (rereadAttrs attrs)))
  have hcfg : ({} : Config).isVoid tag = Tags.isVoid tag := rfl
  obtain ⟨rest,hrest,hcase⟩ : ∃ rest, (Doc.markup (.element tag attrs cs)).toList ++ r =
      (openTag (.withAttributes tag attrs)).toList ++ rest ∧ ((Tags.isVoid tag = true ∧ rest = r) ∨
        (Tags.isVoid tag = false ∧ rest = (Doc.markupAll cs).toList ++ (closeTagChars tag ++ r))) := by
    rw [toList_markup_element]
    cases hv : Tags.isVoid tag
    · rw [if_neg (by simp)]
      exact ⟨_,by simp only [List.append_assoc],.inr ⟨rfl,rfl⟩⟩
    · rw [if_pos (by simp [hvoid hv])]
      exact ⟨r,rfl,.inl ⟨rfl,rfl⟩⟩
  obtain ⟨t,tl,htl,hts,htb⟩ := openTag_tail_head (e := .withAttributes tag attrs) htag rest
  rw [hrest,hO,List.cons_append,build.eq_2,breakAt_lt_cons]
  split
  · next body heq =>
    simp only [List.cons.injEq,true_and,htl] at heq
    exact (htb heq.1).elim
  · next tail hnc heq =>
    simp only [List.cons.injEq,true_and] at heq
    subst heq
    dsimp only
    rw [if_neg (by simp [htl,hts]),if_neg (by simp [htl,htb]),hname,htail,← hO]
    dsimp only
    rw [if_neg (by rw [hnonempty]; decide)]
    simp only [List.all_nil,↓reduceIte,String.ofList_toList,hparse,hattach]
    rw [hself,hcfg]
    rcases hcase with ⟨hv,rfl⟩ | ⟨hv,rfl⟩
    · rw [hv,Bool.true_or,if_pos rfl]
      exact ⟨_,0,by rw [if_pos (rfl : true = true)]⟩
    · rw [hv,Bool.false_or,if_neg (by decide)]
      split
      · next heq => rw [hbal hv] at heq; cases heq
      · next inner closing heq =>
        rw [hbal hv] at heq
        obtain ⟨rfl,rfl⟩ := Prod.mk.inj (Option.some.inj heq)
        rw [tagTail_closeTagChars htag r]
        exact ⟨_,_,by rw [if_neg (by decide : ¬ (false = true))]; rfl⟩
  · next _ hnc => exact (hnc _ rfl).elim

theorem build_element {p : NodeId} (dp off : Nat) {tag : String} {attrs : Attrs} {cs : List Doc}
    (htag : isTagName tag = true) (hraw : Tags.mem Tags.rawText tag = false)
    (hvoid : Tags.isVoid tag = false ∨ cs = []) (hdepth : dp < 511)
    (hattrs : attrs.canonical = true) (hsorted : attrs.Sorted)
    (hcs : Doc.canonicalAll (dp + 1) cs = true) (r : List Char) {D : Draft}
    (hD : D.tree.WellFormed) (hp : D.tree.isElement p = true) :
    ∃ off' off'', build {} p dp off ((Doc.markup (.element tag attrs cs)).toList ++ r) D =
      build {} p dp off' r (build {} ⟨D.tree.size⟩ (dp + 1) off'' (Doc.markupAll cs).toList
        ⟨D.tree.attachNew p (.element (.withAttributes tag attrs)),D.issues⟩) := by
  obtain ⟨off',off'',h⟩ := build_element_read dp off (tagReadable_of_isTagName htag)
    (fun q hq => attrReadable_of_canonical (canonical_entries hattrs q hq))
    (slashFlagLast_of_canonical hattrs) hsorted (fun hv => hvoid.resolve_left (by simp [hv])) r
    (fun hv => breakBalanced_markupAll htag hv hcs r) hD hp
  rw [rereadAttrs_of_canonical hattrs] at h
  refine ⟨off',off'',h.trans ?_⟩
  cases hv : Tags.isVoid tag
  · have hraw' : ({} : Config).isRawText tag = false := hraw
    rw [if_neg (by simp),Draft.readContent,if_neg (by rw [hraw']; decide),
      if_neg (by show ¬ dp + 1 ≥ 512; omega)]
  · obtain rfl := hvoid.resolve_left (by simp [hv])
    rw [if_pos rfl]
    simp only [show (Doc.markupAll []).toList = [] from rfl,build.eq_1]

theorem toList_markupAll_head {ds : List Doc} (h : ds.head?.any Doc.isText = false) :
    (Doc.markupAll ds).toList = [] ∨ (Doc.markupAll ds).toList.head? = some '<' := by
  cases ds with
  | nil => exact .inl rfl
  | cons d ds =>
    right
    rw [toList_markupAll_cons]
    cases d with
    | element tag attrs cs =>
      rw [toList_markup_element]
      split <;> simp [openTag_toList]
    | text s => simp [Doc.isText] at h
    | comment s => simp [toList_markup_comment]
    | declaration s => simp [toList_markup_declaration]

mutual
theorem build_markup : ∀ (d : Doc) {p : NodeId} (dp off : Nat) (r : List Char) (D : Draft),
    D.tree.WellFormed → D.tree.isElement p = true → d.canonical dp = true →
    (∀ a ∈ d.attrsList, a.Sorted) → (d.isText = true → r = [] ∨ r.head? = some '<') →
    ∃ off', build {} p dp off ((Doc.markup d).toList ++ r) D =
      build {} p dp off' r ⟨D.tree.graft p d,D.issues⟩
  | .element tag attrs cs, p, dp, off, r, D, hD, hp, hc, hs, _ => by
    simp only [Doc.canonical,Bool.and_eq_true,Bool.not_eq_true',Bool.or_eq_true,
      List.isEmpty_iff,decide_eq_true_eq] at hc
    obtain ⟨⟨⟨⟨⟨htag,hraw⟩,hvoid⟩,hdepth⟩,hattrs⟩,hcs⟩ := hc
    have hsorted : attrs.Sorted := hs attrs (by simp [Doc.attrsList])
    have hcsorted : ∀ a ∈ Doc.attrsListAll cs, a.Sorted :=
      fun a ha => hs a (by simp [Doc.attrsList,ha])
    obtain ⟨off',off'',h⟩ := build_element dp off htag hraw hvoid hdepth hattrs hsorted hcs r hD hp
    have hn : (D.tree.attachNew p (.element (.withAttributes tag attrs))).isElement ⟨D.tree.size⟩ = true := by
      simp [Tree.isElement,Tree.element?,Tree.data?_attachNew_new]
    rw [h,build_markupAll cs (dp + 1) off'' ⟨D.tree.attachNew p (.element (.withAttributes tag attrs)),D.issues⟩
      (hD.attachNew hp _) hn hcs hcsorted]
    exact ⟨off',rfl⟩
  | .text s, p, dp, off, r, D, hD, hp, hc, _, hr => by
    simp only [Doc.canonical,Bool.and_eq_true,Bool.not_eq_true'] at hc
    have hlt : '<' ∉ s.toList := by simpa using hc.1
    have hlead : D.lead p s.toList = ⟨D.tree.graft p (.text s),D.issues⟩ := by
      rw [Draft.lead,if_neg (by rw [hc.2]; decide),String.ofList_toList,
        Draft.attach_eq_attachNew hD hp]
      rfl
    rcases hr rfl with rfl | hr
    · rw [Doc.markup,List.append_nil,build_of_lt_not_mem _ _ _ _ hlt,hlead]
      exact ⟨0,by rw [build.eq_1]⟩
    · obtain ⟨X,rfl⟩ : ∃ X, r = '<' :: X := by
        cases r with
        | nil => cases hr
        | cons c X => exact ⟨X,by simp at hr; rw [hr]⟩
      rw [Doc.markup,build_lead _ _ _ _ hlt,hlead]
      exact ⟨_,rfl⟩
  | .comment s, p, dp, off, r, D, hD, hp, hc, _, _ => by
    simp only [Doc.canonical,Bool.and_eq_true,Bool.not_eq_true',decide_eq_false_iff_not] at hc
    obtain ⟨off',h⟩ := build_comment {} p dp off (by simpa using hc.2) r D
    rw [h,Draft.attach_eq_attachNew hD hp]
    exact ⟨off',rfl⟩
  | .declaration s, p, dp, off, r, D, hD, hp, hc, _, _ => by
    simp only [Doc.canonical,Bool.and_eq_true,Bool.not_eq_true'] at hc
    have hs : ∀ c ∈ s.toList, c ≠ '>' ∧ isQuote c = false := fun c hc' => by
      have := List.any_eq_false.mp hc.1 c hc'
      simp only [Bool.or_eq_true,beq_iff_eq,not_or] at this
      exact ⟨this.1.2,by simpa using this.2⟩
    obtain ⟨off',h⟩ := build_declaration {} p dp off hs hc.2 r D
    rw [h,Draft.attach_eq_attachNew hD hp]
    exact ⟨off',rfl⟩

theorem build_markupAll : ∀ (fs : List Doc) {p : NodeId} (dp off : Nat) (D : Draft),
    D.tree.WellFormed → D.tree.isElement p = true → Doc.canonicalAll dp fs = true →
    (∀ a ∈ Doc.attrsListAll fs, a.Sorted) →
    build {} p dp off (Doc.markupAll fs).toList D = ⟨D.tree.graftAll p fs,D.issues⟩
  | [], p, dp, off, D, _, _, _, _ => by
    rw [show (Doc.markupAll []).toList = [] from rfl,build.eq_1]
    rfl
  | d :: ds, p, dp, off, D, hD, hp, hc, hs => by
    simp only [Doc.canonicalAll,Bool.and_eq_true] at hc
    obtain ⟨⟨hd,hadj⟩,hds⟩ := hc
    have hr : d.isText = true → (Doc.markupAll ds).toList = [] ∨
        (Doc.markupAll ds).toList.head? = some '<' := fun ht =>
      toList_markupAll_head (by simpa [ht] using hadj)
    obtain ⟨off',h⟩ := build_markup d dp off _ D hD hp hd
      (fun a ha => hs a (by simp [Doc.attrsListAll,ha])) hr
    rw [toList_markupAll_cons,h,build_markupAll ds dp off' ⟨D.tree.graft p d,D.issues⟩
      (hD.graft d hp) (Tree.isElement_graft hp d) hds (fun a ha => hs a (by simp [Doc.attrsListAll,ha]))]
    rfl
end

end Html
end HtmlQuery
