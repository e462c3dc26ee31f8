import Mathlib.Data.List.Dedup
import Mathlib.Data.List.Perm.Subperm
import Mathlib.Data.List.Sort
import Telemetry.Proofs.Call.Sites

/-!
Calls on several receivers.

The receivers are searched for one after the other, and an offset belongs to the search that finds
it first. The order of the searches does not matter all the same, since the text in front of a
parenthesis determines the method: whatever the receiver is, and be it a text that no identifier
looks like, the method of a call is the whole word that stands there.

* `wordBefore_of_mem_sites`, `WordBefore.unique` — every search reads whole words, so two searches
  that find one offset find one call.
* `mem_calls_iff_mem_sites` — so no search hides what another one finds.
* `calls_union` — the calls on several receivers are the calls on each of them, put in source order.
* `not_forall_calls_union` — with methods that are no words they need not be.
-/

namespace Telemetry.Call

open Telemetry.Text Telemetry.Source

/-- A whole word: word characters, at least one. -/
def IsWholeWord (cs : List Char) : Prop :=
  cs ≠ [] ∧ ∀ c ∈ cs, isWord c = true

theorem isWholeWord_of_isIdentifier {cs : List Char} (h : isIdentifier cs = true) :
    IsWholeWord cs :=
  ⟨ne_nil_of_isIdentifier h, fun _ hc => isWord_of_isIdentifierPart (isIdentifierPart_of_mem h hc)⟩

/-- The method of a call is the whole word in front of its parenthesis, blanks between the two left
aside. -/
def WordBefore (text : List Char) (s : Site) : Prop :=
  IsWholeWord s.method.toList ∧ ∃ front bl rest, (∀ c ∈ front.getLast?, isWord c = false) ∧
    Blanks bl ∧ text = (front ++ (s.method.toList ++ bl)) ++ '(' :: rest ∧
    byteSize (front ++ (s.method.toList ++ bl)) = s.opening

section Words

variable {methods receivers : List String} {text receiver : List Char} {start stop : Nat}
  {s s' : Site}

/-- **The offset of the parenthesis determines the method.** -/
theorem WordBefore.unique (h : WordBefore text s) (h' : WordBefore text s')
    (hopening : s.opening = s'.opening) : s = s' := by
  obtain ⟨hmethod, front, bl, rest, hfront, hbl, htext, hsize⟩ := h
  obtain ⟨hmethod', front', bl', rest', hfront', hbl', htext', hsize'⟩ := h'
  obtain ⟨heq, -⟩ := append_inj_of_byteSize (htext.symm.trans htext')
    (by rw [hsize, hsize', hopening])
  obtain ⟨-, hword, -⟩ := word_unique isWord_of_isBlank hfront hfront' hmethod hmethod' hbl hbl' heq
  obtain ⟨method, opening⟩ := s
  obtain ⟨method', opening'⟩ := s'
  obtain rfl : opening = opening' := hopening
  obtain rfl : method = method' := String.toList_inj.mp hword
  rfl

/-- The member of a receiver stands behind a dot or a blank, so it is a whole word. -/
theorem MemberSite.wordBefore (hmethod : isIdentifier s.method.toList = true)
    (h : MemberSite text receiver start s) : WordBefore text s := by
  obtain ⟨phrase, hphrase, hstands⟩ := h
  obtain ⟨pre, access, bl, rest, -, hlast, hbl, htext, hopening⟩ :=
    hstands.word_behind (by decide) hphrase
  refine ⟨isWholeWord_of_isIdentifier hmethod, _, bl, rest, fun c hc => ?_, hbl, htext, hopening⟩
  rcases hlast c hc with rfl | hblank
  · decide
  · exact isWord_of_isBlank hblank

/-- A bare call stands behind a word boundary, so its method is a whole word. -/
theorem BareSite.wordBefore (hmethod : IsWholeWord s.method.toList)
    (h : BareSite text start s) : WordBefore text s := by
  obtain ⟨_, ⟨bl, hbl, rfl⟩, ⟨pre, post, rfl, rfl, hboundary⟩, -, hends⟩ := h
  refine ⟨hmethod, pre, bl, post, fun c hc => ?_, hbl, by simp, ?_⟩
  · obtain ⟨d, word, hd⟩ := List.exists_cons_of_ne_nil hmethod.1
    have hword : isWord d = true := hmethod.2 d (hd ▸ List.mem_cons_self)
    rw [isBoundary, Option.mem_def.mp hc, hd] at hboundary
    simpa [hword] using hboundary
  · simp only [byteSize_append, byteSize_cons, byteSize_nil,
      utf8Size_of_ascii (c := '(') (by decide)] at hends ⊢
    omega

/-- A block ends with the brace that matches its opening one, whatever text the receiver is. -/
theorem matchingBrace_of_mem_scopes {b : Scope} (hb : b ∈ scopes text receiver) :
    matchingBrace (encode text) b.opening = some b.closing := by
  obtain ⟨o, -, hscope⟩ := List.mem_filterMap.mp hb
  unfold scopeAt? at hscope
  split at hscope
  · obtain ⟨closing, hclosing, rfl⟩ := Option.map_eq_some_iff.mp hscope
    exact hclosing
  · cases hscope

/-- **Every search reads whole words.** -/
theorem wordBefore_of_mem_sites (hmethods : ∀ m ∈ methods, IsWholeWord m.toList)
    (h : s ∈ sites methods text receivers) : WordBefore text s := by
  have hmember : ∀ {receiver start stop}, IsWindow text start stop →
      s ∈ memberSites methods text (Coverage.ofBytes (encode text)) receiver start stop →
        WordBefore text s := by
    intro receiver start stop hwindow hs
    obtain ⟨-, hidentifier, k, hsite, -⟩ := of_mem_memberSites hwindow hs
    exact hsite.wordBefore hidentifier
  simp only [sites, List.mem_append, List.mem_flatMap] at h
  rcases h with ⟨r, -, hs⟩ | ⟨r, -, b, hb, hs⟩
  · exact hmember (isWindow_whole text) hs
  · have hwindow := isWindow_of_matchingBrace (matchingBrace_of_mem_scopes hb)
    unfold scopeSites at hs
    split at hs
    · obtain ⟨hmethod, k, hsite, -⟩ := of_mem_bareSites hwindow hs
      exact hsite.wordBefore (hmethods _ hmethod)
    · exact hmember hwindow hs

/-- The receivers are searched for one by one. -/
theorem mem_sites_iff_exists :
    s ∈ sites methods text receivers ↔ ∃ r ∈ receivers, s ∈ sites methods text [r] := by
  simp only [sites, List.mem_append, List.mem_flatMap, List.flatMap_cons, List.flatMap_nil,
    List.append_nil]
  constructor
  · rintro (⟨r, hr, hs⟩ | ⟨r, hr, hs⟩)
    · exact ⟨r, hr, Or.inl hs⟩
    · exact ⟨r, hr, Or.inr hs⟩
  · rintro ⟨r, hr, hs | hs⟩
    · exact Or.inl ⟨r, hr, hs⟩
    · exact Or.inr ⟨r, hr, hs⟩

/-- **No search hides what another one finds**: a record is listed exactly if some search finds its
site. -/
theorem mem_calls_iff_mem_sites (hmethods : ∀ m ∈ methods, IsWholeWord m.toList) {c : Record} :
    c ∈ calls methods text receivers ↔
      c.toSite ∈ sites (methods.mergeSort fun a b => a ≤ b) text receivers ∧
        c.args = (arguments (encode text) c.opening).map String.ofList := by
  have hsorted : ∀ m ∈ methods.mergeSort (fun a b => a ≤ b), IsWholeWord m.toList :=
    fun m hm => hmethods m (List.mem_mergeSort.mp hm)
  simp only [calls, List.mem_map, List.mem_mergeSort]
  constructor
  · rintro ⟨s, hs, rfl⟩
    exact ⟨mem_of_mem_claim hs, rfl⟩
  · rintro ⟨hs, hargs⟩
    obtain ⟨t, ht, hopening⟩ := exists_mem_claim hs
    obtain rfl : t = c.toSite := (wordBefore_of_mem_sites hsorted (mem_of_mem_claim ht)).unique
      (wordBefore_of_mem_sites hsorted hs) hopening
    exact ⟨c.toSite, ht, by rw [← hargs]⟩

theorem mem_calls_iff_exists (hmethods : ∀ m ∈ methods, IsWholeWord m.toList) {c : Record} :
    c ∈ calls methods text receivers ↔ ∃ r ∈ receivers, c ∈ calls methods text [r] := by
  simp only [mem_calls_iff_mem_sites hmethods]
  rw [mem_sites_iff_exists]
  constructor
  · rintro ⟨⟨r, hr, hs⟩, hargs⟩
    exact ⟨r, hr, hs, hargs⟩
  · rintro ⟨r, hr, hs, hargs⟩
    exact ⟨⟨r, hr, hs⟩, hargs⟩

end Words

/-! ### Lists in source order -/

section Order

variable {cs ds : List Record}

/-- Records in source order, each offset once. -/
def InOrder (cs : List Record) : Prop :=
  cs.Pairwise fun c d => c.opening < d.opening

theorem InOrder.nodup (h : InOrder cs) : cs.Nodup := by
  refine List.Pairwise.imp (fun {c d} hlt heq => ?_) h
  exact Nat.ne_of_lt hlt (congrArg (·.opening) heq)

theorem InOrder.eq_of_opening_eq (h : InOrder cs) {c d : Record} (hc : c ∈ cs) (hd : d ∈ cs)
    (heq : c.opening = d.opening) : c = d := by
  have hne : cs.Pairwise fun c d => c.opening ≠ d.opening := List.Pairwise.imp Nat.ne_of_lt h
  have : Std.Symm fun c d : Record => c.opening ≠ d.opening := ⟨fun _ _ => Ne.symm⟩
  by_contra hdistinct
  exact hne.forall hc hd hdistinct heq

/-- Records in source order are part of others in source order if they are among them. -/
theorem InOrder.sublist_of_subset (hcs : InOrder cs) (hds : InOrder ds) (h : cs ⊆ ds) :
    cs.Sublist ds := by
  have : Std.Antisymm fun c d : Record => c.opening < d.opening :=
    ⟨fun _ _ hlt hgt => absurd hlt (Nat.lt_asymm hgt)⟩
  exact List.sublist_of_subperm_of_pairwise (List.Nodup.subperm hcs.nodup h) hcs hds

/-- Records in source order are determined by what they are. -/
theorem InOrder.eq_of_mem_iff (hcs : InOrder cs) (hds : InOrder ds) (h : ∀ c, c ∈ cs ↔ c ∈ ds) :
    cs = ds :=
  (hcs.sublist_of_subset hds fun c => (h c).mp).antisymm
    (hds.sublist_of_subset hcs fun c => (h c).mpr)

/-- Distinct records with distinct offsets are put in source order by sorting. -/
theorem inOrder_mergeSort (hnodup : cs.Nodup)
    (hunique : ∀ c ∈ cs, ∀ d ∈ cs, c.opening = d.opening → c = d) :
    InOrder (cs.mergeSort fun c d => c.opening ≤ d.opening) := by
  have hle := @List.pairwise_mergeSort Record (fun c d => decide (c.opening ≤ d.opening))
    (fun a b c hab hbc => by
      simp only [decide_eq_true_eq] at hab hbc ⊢
      omega)
    (fun a b => by
      simp only [Bool.or_eq_true, decide_eq_true_eq]
      omega) cs
  have hne := (List.mergeSort_perm cs fun c d => c.opening ≤ d.opening).nodup_iff.mpr hnodup
  refine (hle.and hne).imp_of_mem fun {c d} hc hd h => ?_
  have hdistinct : c.opening ≠ d.opening := fun heq =>
    h.2 (hunique c (List.mem_mergeSort.mp hc) d (List.mem_mergeSort.mp hd) heq)
  have := of_decide_eq_true h.1
  omega

end Order

/-- A set of methods that are words: there is one, and each is a whole word. -/
structure AreWords (methods : List String) : Prop where
  nonempty : methods ≠ []
  words : ∀ m ∈ methods, IsWholeWord m.toList

/-- **Call detection is a union over the receivers.** For a set of methods that are words, the calls
on a list of receivers, whatever texts these are, are the calls on each one alone, sorted by their
offsets and without repetitions. So the order and the multiplicity of the receivers do not matter,
and further receivers neither remove a call nor change one. -/
theorem calls_union {methods : List String} (hmethods : AreWords methods)
    (text : List Char) (receivers : List String) :
    (calls methods text receivers =
      (receivers.flatMap fun r => calls methods text [r]).dedup.mergeSort
        fun c d => c.opening ≤ d.opening) ∧
    ((calls methods text receivers).Pairwise fun c d => c.opening < d.opening) ∧
    (∀ receivers', (∀ r, r ∈ receivers ↔ r ∈ receivers') →
      calls methods text receivers = calls methods text receivers') ∧
    ∀ receivers', receivers ⊆ receivers' →
      (calls methods text receivers).Sublist (calls methods text receivers') := by
  have hmem : ∀ c, c ∈ (receivers.flatMap fun r => calls methods text [r]).dedup ↔
      c ∈ calls methods text receivers := by
    intro c
    rw [List.mem_dedup, List.mem_flatMap, mem_calls_iff_exists hmethods.words]
  have horder : ∀ receivers, InOrder (calls methods text receivers) :=
    calls_pairwise methods text
  refine ⟨(horder receivers).eq_of_mem_iff (inOrder_mergeSort (List.nodup_dedup _) ?_) fun c => ?_,
    horder receivers, fun receivers' h => ?_, fun receivers' h => ?_⟩
  · intro c hc d hd heq
    exact (horder receivers).eq_of_opening_eq ((hmem c).mp hc) ((hmem d).mp hd) heq
  · rw [List.mem_mergeSort, hmem]
  · refine (horder receivers).eq_of_mem_iff (horder receivers') fun c => ?_
    rw [mem_calls_iff_exists hmethods.words, mem_calls_iff_exists hmethods.words]
    simp only [h]
  · refine (horder receivers).sublist_of_subset (horder receivers') fun c hc => ?_
    rw [mem_calls_iff_exists hmethods.words] at hc ⊢
    obtain ⟨r, hr, hc⟩ := hc
    exact ⟨r, h hr, hc⟩

/-- A receiver with a dot in it, an empty one and a repeated one, beside a block. -/
theorem calls_union_odd :
    calls ["counter"] "a.b.counter(1); b.run \x7b counter(2) \x7d".toList ["b", "a.b", "", "b"] =
      [⟨⟨"counter", 11⟩, ["1"]⟩, ⟨⟨"counter", 31⟩, ["2"]⟩] ∧
    calls ["counter"] "a.b.counter(1); b.run \x7b counter(2) \x7d".toList ["a.b"] =
      [⟨⟨"counter", 11⟩, ["1"]⟩] ∧
    calls ["counter"] "a.b.counter(1); b.run \x7b counter(2) \x7d".toList ["b", "a.b", "", "b"] =
      calls ["counter"] "a.b.counter(1); b.run \x7b counter(2) \x7d".toList ["", "a.b", "b"] := by
  have hmethods : AreWords ["counter"] := by
    refine ⟨by decide, fun m hm => ?_⟩
    rw [List.mem_singleton.mp hm]
    exact isWholeWord_of_isIdentifier (by decide)
  refine ⟨?_, ?_, (calls_union hmethods _ _).2.2.1 _ (by simp; tauto)⟩
  · rw [calls_eq_map_of_pairwise (by decide) (by decide +kernel)]
    decide +kernel
  · rw [calls_eq_map_of_pairwise (by decide) (by decide +kernel)]
    decide +kernel

/-- A method that is no word is read across a qualifier. In the block of `r` the bare method `a.b` is
called; with the further receiver `a` the same parenthesis goes to its method `b`, which is searched
for first, and the call of `a.b` is lost. -/
theorem not_forall_calls_union :
    ¬ ∀ (methods : List String) (text : List Char) (receivers : List String),
      calls methods text receivers =
        (receivers.flatMap fun r => calls methods text [r]).dedup.mergeSort
          fun c d => c.opening ≤ d.opening := by
  intro h
  have hblock : calls ["a.b", "b"] "r.apply \x7b a.b(1) \x7d".toList ["r"] =
      [⟨⟨"a.b", 13⟩, ["1"]⟩] := by
    rw [calls_eq_map_of_pairwise (by decide) (by decide +kernel)]
    decide +kernel
  have hboth : calls ["a.b", "b"] "r.apply \x7b a.b(1) \x7d".toList ["r", "a"] =
      [⟨⟨"b", 13⟩, ["1"]⟩] := by
    rw [calls_eq_map_of_pairwise (by decide) (by decide +kernel)]
    decide +kernel
  have hmem : (⟨⟨"a.b", 13⟩, ["1"]⟩ : Record) ∈
      calls ["a.b", "b"] "r.apply \x7b a.b(1) \x7d".toList ["r", "a"] := by
    rw [h, List.mem_mergeSort, List.mem_dedup, List.mem_flatMap]
    exact ⟨"r", by decide, by rw [hblock]; exact List.mem_singleton_self _⟩
  rw [hboth] at hmem
  exact absurd hmem (by decide)

end Telemetry.Call
