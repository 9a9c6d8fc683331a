import HtmlQuery.Proofs.Markup.Rereading

/-! Parsing undoes writing on canonical trees. -/
namespace HtmlQuery

namespace Tree

theorem attrsListAll_sorted {t : Tree} {k : Nat}
    (ih : ∀ id d, t.viewUpTo k id = some d → ∀ a ∈ d.attrsList, a.Sorted) :
    ∀ (ids : List NodeId) (ds : List Doc), ids.mapM (t.viewUpTo k) = some ds →
      ∀ a ∈ Doc.attrsListAll ds, a.Sorted := by
  intro ids
  induction ids with
  | nil =>
    intro ds h
    cases h
    simp [Doc.attrsListAll]
  | cons x xs ihx =>
    intro ds h a ha
    obtain ⟨d,ds',hd,hds',rfl⟩ := mapM_cons_eq_some.mp h
    simp only [Doc.attrsListAll,List.mem_append] at ha
    rcases ha with ha | ha
    · exact ih x d hd a ha
    · exact ihx ds' hds' a ha

theorem attrsList_sorted {t : Tree} (h : t.SortedAttrs) :
    ∀ (k : Nat) (id : NodeId) (d : Doc), t.viewUpTo k id = some d → ∀ a ∈ d.attrsList, a.Sorted := by
  intro k
  induction k with
  | zero => intro id d hd; cases hd
  | succ k ih =>
    intro id d hd a ha
    obtain ⟨n,ds,hn,hds,rfl⟩ := viewUpTo_succ hd
    cases hdata : n.data with
    | element e =>
      rw [hdata] at ha
      simp only [Doc.ofData,Doc.attrsList,List.mem_cons] at ha
      rcases ha with rfl | ha
      · exact h id _ (element?_eq_some.mpr (by simp [data?,hn,hdata]))
      · exact attrsListAll_sorted ih _ ds hds a ha
    | text s => rw [hdata] at ha; simp [Doc.ofData,Doc.attrsList] at ha
    | comment s => rw [hdata] at ha; simp [Doc.ofData,Doc.attrsList] at ha
    | declaration s => rw [hdata] at ha; simp [Doc.ofData,Doc.attrsList] at ha

theorem WellFormed.view_root_tag {t : Tree} (h : t.WellFormed) {tag : String} {attrs : Attrs}
    {cs : List Doc} (hv : t.view NodeId.root = some (.element tag attrs cs)) : tag = ":root" := by
  obtain ⟨k,hk⟩ : ∃ k, t.size = k + 1 := ⟨t.size - 1,by have := h.size_pos; omega⟩
  rw [view,hk] at hv
  obtain ⟨n,ds,hn,-,hd⟩ := viewUpTo_succ hv
  have hroot := h.root_tag
  cases hdata : n.data with
  | element e =>
    rw [hdata] at hd
    simp only [Doc.ofData,Doc.element.injEq] at hd
    simp [element?,data?,hn,hdata] at hroot
    rw [hd.1,hroot]
  | text s => rw [hdata] at hd; cases hd
  | comment s => rw [hdata] at hd; cases hd
  | declaration s => rw [hdata] at hd; cases hd

theorem view_graftAll_empty (cs : List Doc) :
    (Tree.empty.graftAll NodeId.root cs).view NodeId.root =
      some (.element ":root" Attrs.empty cs) := by
  obtain ⟨ids,hg⟩ := graftAll_grafts cs Tree.empty NodeId.root (by decide)
  have hsize : (Tree.empty.graftAll NodeId.root cs).size = Doc.countAll cs + 1 := by
    rw [hg.size_eq,show Tree.empty.size = 1 from rfl]
    omega
  have hdata : (Tree.empty.graftAll NodeId.root cs).data? NodeId.root =
      some (.element { tag := ":root" }) := by
    rw [hg.data?_eq]
    rfl
  have hch : ((Tree.empty.graftAll NodeId.root cs).children NodeId.root).mapM
      ((Tree.empty.graftAll NodeId.root cs).viewUpTo (Doc.countAll cs)) = some cs := by
    rw [hg.children_eq]
    exact hg.view _ (fun _ _ _ => rfl) _ (Nat.le_refl _)
  rw [view,hsize,viewUpTo_succ_of_data? hdata hch]
  rfl

end Tree

namespace Html

theorem parseDocument_markupAll {cs : List Doc} (hc : Doc.canonicalAll 0 cs = true)
    (hs : ∀ a ∈ Doc.attrsListAll cs, a.Sorted) :
    parseDocument {} (Doc.markupAll cs) = (Tree.empty.graftAll NodeId.root cs, []) := by
  have hbuild := build_markupAll cs 0 0 { tree := Tree.empty } Tree.wellFormed_empty
    (show Tree.empty.isElement NodeId.root = true by decide) hc hs
  simp [parseDocument, buildInto, hbuild]

theorem outerHtml_graftAll_empty (cs : List Doc) :
    (Tree.empty.graftAll NodeId.root cs).outerHtml NodeId.root = Doc.markupAll cs :=
  have hwf := Tree.WellFormed.graftAll cs Tree.wellFormed_empty
    (show Tree.empty.isElement NodeId.root = true by decide)
  Tree.markupUpTo_root hwf.root_not_mem_children (Tree.view_graftAll_empty cs)

/-- Parsing the markup of a canonical reachable tree reports nothing and gives its plain tree. -/
theorem parseDocument_outerHtml_of_canonical (es : List Edit)
    (hc : (Edit.run es Tree.empty).canonical = true) :
    (parseDocument {} ((Edit.run es Tree.empty).outerHtml NodeId.root)).2 = [] ∧
      (parseDocument {} ((Edit.run es Tree.empty).outerHtml NodeId.root)).1.view NodeId.root =
        (Edit.run es Tree.empty).view NodeId.root := by
  have hT := Edit.run_wellFormed es Tree.wellFormed_empty
  have hS := Edit.run_sortedAttrs es Tree.sortedAttrs_empty
  unfold Tree.canonical at hc
  split at hc
  · next tag attrs cs hv =>
    simp only [Bool.and_eq_true,List.isEmpty_iff] at hc
    have hmarkup : (Edit.run es Tree.empty).outerHtml NodeId.root = Doc.markupAll cs :=
      Tree.markupUpTo_root hT.root_not_mem_children hv
    have hsorted : ∀ a ∈ Doc.attrsListAll cs, a.Sorted := fun a ha =>
      Tree.attrsList_sorted hS _ _ _ hv a (by simp [Doc.attrsList,ha])
    have htag := hT.view_root_tag hv
    have hattrs : attrs = Attrs.empty := by
      cases attrs
      simp only [Attrs.empty,Attrs.mk.injEq]
      exact hc.1
    rw [hv,htag,hattrs,hmarkup,parseDocument_markupAll hc.2 hsorted]
    exact ⟨rfl,Tree.view_graftAll_empty cs⟩
  · cases hc

/-- A paragraph with a class, a text and a comment reads back. -/
theorem parseDocument_outerHtml_paragraph :
    let t := Edit.run [.createElement "p" [("class",.text "x")],.appendChild NodeId.root ⟨1⟩,
      .createText "hi",.appendChild ⟨1⟩ ⟨2⟩,.createComment " note ",.appendChild ⟨1⟩ ⟨3⟩] Tree.empty
    t.canonical = true ∧ (parseDocument {} (t.outerHtml NodeId.root)).2 = [] ∧
      (parseDocument {} (t.outerHtml NodeId.root)).1.view NodeId.root = t.view NodeId.root := by
  intro t
  have hc : t.canonical = true := by decide
  exact ⟨hc,parseDocument_outerHtml_of_canonical _ hc⟩

/-- Writing is a normal form for parsing: the markup of a parsed document parses to a document
with the same markup, whenever that markup has one reading. -/
theorem parseDocument_outerHtml_normal (html : String)
    (hu : (parseDocument {} html).1.unambiguous = true) :
    (parseDocument {} ((parseDocument {} html).1.outerHtml NodeId.root)).1.outerHtml NodeId.root =
      (parseDocument {} html).1.outerHtml NodeId.root := by
  -- the parse is the root with a forest the builder can give, whose markup reads back
  obtain ⟨F,hF,hparsed⟩ := parseDocument_parsed html
  rw [hF] at hu ⊢
  have hF' : Doc.unambiguousAll F = true := by
    simpa [Tree.unambiguous,Tree.view_graftAll_empty] using hu
  obtain ⟨F',hread,hmarkup⟩ := read_markupAll F 0 0 [] { tree := Tree.empty } Tree.wellFormed_empty
    (show Tree.empty.isElement NodeId.root = true by decide) (by simp) (.inl rfl) hparsed hF'
  have hparse : (parseDocument {} (Doc.markupAll F)).1 = Tree.empty.graftAll NodeId.root F' := by
    simpa [parseDocument,buildInto] using hread
  rw [outerHtml_graftAll_empty,hparse,outerHtml_graftAll_empty,hmarkup]
  simp

/-- A stray end tag joins two texts, a script holds a `<`, and a value holds both quotes: the
markup still reads back to itself. -/
theorem parseDocument_outerHtml_normal_paragraph :
    let html := "<p t=x\"'\">a</b>c<script>1<2</script><!--x--></p>"
    (parseDocument {} html).1.unambiguous = true ∧
      (parseDocument {} ((parseDocument {} html).1.outerHtml NodeId.root)).1.outerHtml NodeId.root =
        (parseDocument {} html).1.outerHtml NodeId.root := by
  intro html
  have hu : (parseDocument {} html).1.unambiguous = true := by decide +kernel
  exact ⟨hu,parseDocument_outerHtml_normal html hu⟩

/-- Documents whose markup is not a normal form: a quote in a tag name, a quote in an attribute
name, a last flag whose name ends in `/`, and children whose markup closes their element early. -/
theorem parseDocument_outerHtml_unstable :
    ["<a\"b>","<a \"b>","<a b/ >x</a>","<a><<a </a></a>"].map (fun html =>
        ((parseDocument {} html).1.unambiguous,(parseDocument {} html).1.outerHtml NodeId.root,
          (parseDocument {} ((parseDocument {} html).1.outerHtml NodeId.root)).1.outerHtml NodeId.root)) =
      [(false,"<a\"b></a\"b>","<a\"b ></a\"b></a\"b>"),
        (false,"<a \"b></a>","<a \"b></a></a>"),
        (false,"<a b/>x</a>","<a b></a>x"),
        (false,"<a><<a </a></<a></a>","<a></a><<a </a></<a>")] := by
  decide +kernel

end Html
end HtmlQuery
