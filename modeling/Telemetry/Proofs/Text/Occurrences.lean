import Telemetry.Proofs.Text.Bytes
import Telemetry.Text.Occurrence

/-!
The search for a pattern finds every match, provided that matches cannot overlap.

* `Pattern.Separated` — a match takes at least one character, and no other match starts inside it.
* `mem_occurrences_iff` — for such a pattern the matches listed by the search, which goes on behind
  each match, are all the places where the pattern succeeds; `occurrencesFrom_pairwise` says that
  they are listed in order. Of any pattern the search lists nothing but such places
  (`exists_match_of_mem_occurrencesFrom`), and a place that no earlier match reaches is listed
  (`exists_mem_occurrencesFrom_of_clear`).
* `OnBoundary` — a phrase at an offset of a text, on a word boundary; `mem_occurrences_window_iff`
  says that a search in a window, whose left neighbour is no word character, finds just the phrases
  of the text that lie inside the window.
-/

namespace Telemetry.Text

/-- No match starts inside another one. -/
structure Pattern.Separated {α : Type} (p : Pattern α) : Prop where
  /-- A match takes at least one character and leaves the end of the text. -/
  consumes : ∀ {before : Option Char} {cs rest : List Char} {a : α},
    p before cs = some (a, rest) → ∃ phrase, phrase ≠ [] ∧ cs = phrase ++ rest
  /-- Inside a match the pattern fails. -/
  apart : ∀ {before : Option Char} {x y rest : List Char} {a : α},
    p before (x ++ (y ++ rest)) = some (a, rest) → x ≠ [] → y ≠ [] →
      p x.getLast? (y ++ rest) = none

section Search

variable {α : Type} {p : Pattern α}

theorem getLast?_cons_or (c : Char) (pre : List Char) (before : Option Char) :
    (c :: pre).getLast?.or before = pre.getLast?.or (some c) := by
  rw [List.getLast?_cons]
  cases pre.getLast? with
  | none => rfl
  | some d => rfl

/-- A place of the text `cs` where the pattern succeeds, at least `skip` characters behind its
start. The text stands at `offset` behind the character `before`. -/
def Occurrence.IsMatch (p : Pattern α) (before : Option Char) (offset skip : Nat)
    (cs : List Char) (o : Occurrence α) : Prop :=
  ∃ pre phrase rest, cs = pre ++ (phrase ++ rest) ∧ skip ≤ pre.length ∧
    p (pre.getLast?.or before) (phrase ++ rest) = some (o.value, rest) ∧
    o.start = offset + byteSize pre ∧ o.stop = o.start + byteSize phrase

/-- A place behind the first character is a place of the tail. -/
theorem isMatch_cons_succ_iff {before : Option Char} {offset skip : Nat} {c : Char}
    {cs : List Char} {o : Occurrence α} :
    o.IsMatch p before offset (skip + 1) (c :: cs) ↔
      o.IsMatch p (some c) (offset + c.utf8Size) skip cs := by
  constructor
  · rintro ⟨pre, phrase, rest, hcs, hskip, hmatch, hstart, hstop⟩
    cases pre with
    | nil => simp at hskip
    | cons d pre =>
      obtain ⟨rfl, rfl⟩ := List.cons.inj hcs
      refine ⟨pre, phrase, rest, rfl, by simpa using hskip, ?_, ?_, hstop⟩
      · rw [getLast?_cons_or] at hmatch
        exact hmatch
      · rw [hstart, byteSize_cons]
        omega
  · rintro ⟨pre, phrase, rest, rfl, hskip, hmatch, hstart, hstop⟩
    refine ⟨c :: pre, phrase, rest, rfl, by simpa using hskip, ?_, ?_, hstop⟩
    · rw [getLast?_cons_or]
      exact hmatch
    · rw [hstart, byteSize_cons]
      omega

/-- Where the pattern fails in front, every place is behind the first character. -/
theorem isMatch_zero_iff_of_none {before : Option Char} {offset : Nat} {c : Char}
    {cs : List Char} (hfront : p before (c :: cs) = none) {o : Occurrence α} :
    o.IsMatch p before offset 0 (c :: cs) ↔ o.IsMatch p before offset 1 (c :: cs) := by
  constructor
  · rintro ⟨pre, phrase, rest, hcs, -, hmatch, hbounds⟩
    refine ⟨pre, phrase, rest, hcs, ?_, hmatch, hbounds⟩
    cases pre with
    | nil =>
      rw [List.nil_append] at hcs
      rw [← hcs, List.getLast?_nil, Option.none_or, hfront] at hmatch
      cases hmatch
    | cons d pre => simp
  · rintro ⟨pre, phrase, rest, hcs, -, hmatch, hbounds⟩
    exact ⟨pre, phrase, rest, hcs, Nat.zero_le _, hmatch, hbounds⟩

/-- Where the pattern succeeds in front, every other place is behind that match. -/
theorem isMatch_zero_iff_of_some (h : p.Separated) {before : Option Char} {offset : Nat}
    {phrase rest : List Char} {a : α} (hne : phrase ≠ [])
    (hfront : p before (phrase ++ rest) = some (a, rest)) {o : Occurrence α} :
    o.IsMatch p before offset 0 (phrase ++ rest) ↔
      o = ⟨offset, offset + byteSize phrase, a⟩ ∨
        o.IsMatch p before offset phrase.length (phrase ++ rest) := by
  constructor
  · rintro ⟨pre, phrase', rest', hcs, -, hmatch, hstart, hstop⟩
    by_cases hlong : phrase.length ≤ pre.length
    · exact Or.inr ⟨pre, phrase', rest', hcs, hlong, hmatch, hstart, hstop⟩
    -- A place inside the match in front must be its start.
    · obtain ⟨y, rfl, hy⟩ : ∃ y, phrase = pre ++ y ∧ phrase' ++ rest' = y ++ rest := by
        rcases List.append_eq_append_iff.mp hcs with ⟨y, h₁, -⟩ | ⟨y, h₁, h₂⟩
        · rw [h₁, List.length_append] at hlong
          omega
        · exact ⟨y, h₁, h₂⟩
      have hyne : y ≠ [] := by
        rintro rfl
        simp at hlong
      cases pre with
      | nil =>
        rw [hy, List.getLast?_nil, Option.none_or] at hmatch
        rw [List.nil_append] at hfront
        rw [hfront] at hmatch
        cases hmatch
        rw [byteSize_nil, Nat.add_zero] at hstart
        rw [hstart, List.append_cancel_right hy] at hstop
        refine Or.inl ?_
        rw [List.nil_append, ← hstop, ← hstart]
      | cons d pre =>
        rw [List.append_assoc] at hfront
        have hnone := h.apart hfront (by simp) hyne
        rw [hy, List.getLast?_cons, Option.some_or, ← List.getLast?_cons, hnone] at hmatch
        cases hmatch
  · rintro (rfl | ⟨pre, phrase', rest', hcs, -, hmatch, hbounds⟩)
    · exact ⟨[], phrase, rest, rfl, Nat.le_refl _, hfront, rfl, rfl⟩
    · exact ⟨pre, phrase', rest', hcs, Nat.zero_le _, hmatch, hbounds⟩

theorem mem_occurrencesFrom_iff (h : p.Separated) {before : Option Char} {offset skip : Nat}
    {cs : List Char} {o : Occurrence α} :
    o ∈ occurrencesFrom p before offset skip cs ↔ o.IsMatch p before offset skip cs := by
  induction cs generalizing before offset skip with
  | nil =>
    simp only [occurrencesFrom, List.not_mem_nil, false_iff]
    rintro ⟨pre, phrase, rest, hcs, -, hmatch, -⟩
    obtain ⟨phrase', hne, hphrase⟩ := h.consumes hmatch
    simp_all
  | cons c cs ih =>
    cases skip with
    | succ skip => rw [occurrencesFrom, ih, isMatch_cons_succ_iff]
    | zero =>
      rw [occurrencesFrom]
      cases hfront : p before (c :: cs) with
      | none =>
        simp only
        rw [ih, isMatch_zero_iff_of_none hfront, isMatch_cons_succ_iff]
      | some found =>
        obtain ⟨a, rest⟩ := found
        obtain ⟨phrase, hne, hphrase⟩ := h.consumes hfront
        have hpos : phrase.length - 1 + 1 = phrase.length := by
          have := List.length_pos_iff.mpr hne
          omega
        rw [hphrase] at hfront
        simp only [hphrase, List.length_append, Nat.add_sub_cancel, List.take_left, List.mem_cons]
        rw [ih, ← @isMatch_cons_succ_iff _ _ before, hphrase, hpos,
          isMatch_zero_iff_of_some h hne hfront]

/-- **The search finds every match** of a pattern whose matches cannot overlap. -/
theorem mem_occurrences_iff (h : p.Separated) {cs : List Char} {offset : Nat}
    {o : Occurrence α} :
    o ∈ occurrences p cs offset ↔
      ∃ pre phrase rest, cs = pre ++ (phrase ++ rest) ∧
        p pre.getLast? (phrase ++ rest) = some (o.value, rest) ∧
        o.start = offset + byteSize pre ∧ o.stop = o.start + byteSize phrase := by
  rw [occurrences, mem_occurrencesFrom_iff h]
  simp only [Occurrence.IsMatch, Nat.zero_le, true_and, Option.or_none]

/-- **What the search lists, the pattern has read**, whether or not matches can overlap. -/
theorem exists_match_of_mem_occurrencesFrom {before : Option Char} {offset skip : Nat}
    {cs : List Char} {o : Occurrence α} (h : o ∈ occurrencesFrom p before offset skip cs) :
    ∃ pre post rest, cs = pre ++ post ∧ skip ≤ pre.length ∧
      p (pre.getLast?.or before) post = some (o.value, rest) ∧ o.start = offset + byteSize pre ∧
      o.stop = o.start + byteSize (post.take (post.length - rest.length)) := by
  induction cs generalizing before offset skip with
  | nil => cases h
  | cons c cs ih =>
    have hbehind : ∀ {skip skip'}, skip' ≤ skip + 1 →
        o ∈ occurrencesFrom p (some c) (offset + c.utf8Size) skip cs →
        ∃ pre post rest, c :: cs = pre ++ post ∧ skip' ≤ pre.length ∧
          p (pre.getLast?.or before) post = some (o.value, rest) ∧
          o.start = offset + byteSize pre ∧
          o.stop = o.start + byteSize (post.take (post.length - rest.length)) := by
      intro skip skip' hle h
      obtain ⟨pre, post, rest, rfl, hskip, hread, hstart, hstop⟩ := ih h
      refine ⟨c :: pre, post, rest, rfl, hle.trans (by simpa using hskip), ?_, ?_, hstop⟩
      · rw [getLast?_cons_or]
        exact hread
      · rw [hstart, byteSize_cons, Nat.add_assoc]
    cases skip with
    | succ skip => exact hbehind (Nat.le_refl _) h
    | zero =>
      rw [occurrencesFrom] at h
      cases hfront : p before (c :: cs) with
      | none =>
        rw [hfront] at h
        exact hbehind (Nat.zero_le _) h
      | some found =>
        obtain ⟨a, rest⟩ := found
        rw [hfront] at h
        rcases List.mem_cons.mp h with rfl | h
        · exact ⟨[], c :: cs, rest, rfl, Nat.le_refl _, hfront, rfl, rfl⟩
        · exact hbehind (Nat.zero_le _) h

/-- **The search finds a match that no earlier one reaches**: where the pattern succeeds, and every
match that would start before ends there or earlier, the search has come to a stand in time. -/
theorem exists_mem_occurrencesFrom_of_clear {before : Option Char} {offset skip : Nat}
    {pre post rest : List Char} {a : α} (hread : p (pre.getLast?.or before) post = some (a, rest))
    (hpost : post ≠ []) (hskip : skip ≤ pre.length)
    (hclear : ∀ x y b rest', pre = x ++ y → y ≠ [] →
      p (x.getLast?.or before) (y ++ post) = some (b, rest') → post.length ≤ rest'.length) :
    ∃ o ∈ occurrencesFrom p before offset skip (pre ++ post), o.value = a ∧
      o.start = offset + byteSize pre ∧
      o.stop = o.start + byteSize (post.take (post.length - rest.length)) := by
  induction pre generalizing before offset skip with
  | nil =>
    obtain ⟨c, cs, rfl⟩ := List.exists_cons_of_ne_nil hpost
    obtain rfl : skip = 0 := Nat.le_zero.mp hskip
    rw [List.getLast?_nil, Option.none_or] at hread
    rw [List.nil_append, occurrencesFrom, hread]
    exact ⟨_, List.mem_cons_self, rfl, rfl, rfl⟩
  | cons c pre ih =>
    have hclear' : ∀ x y b rest', pre = x ++ y → y ≠ [] →
        p (x.getLast?.or (some c)) (y ++ post) = some (b, rest') →
          post.length ≤ rest'.length := by
      intro x y b rest' hpre hy hmatch
      refine hclear (c :: x) y b rest' (by rw [hpre, List.cons_append]) hy ?_
      rwa [getLast?_cons_or]
    have hbehind : ∀ skip ≤ pre.length,
        ∃ o ∈ occurrencesFrom p (some c) (offset + c.utf8Size) skip (pre ++ post), o.value = a ∧
          o.start = offset + byteSize (c :: pre) ∧
          o.stop = o.start + byteSize (post.take (post.length - rest.length)) := by
      intro skip hskip
      obtain ⟨o, ho, hvalue, hstart, hstop⟩ :=
        @ih (some c) (offset + c.utf8Size) skip (by rwa [← getLast?_cons_or]) hskip hclear'
      exact ⟨o, ho, hvalue, by rw [hstart, byteSize_cons, Nat.add_assoc], hstop⟩
    rw [List.cons_append]
    cases skip with
    | succ skip => exact hbehind skip (Nat.le_of_succ_le_succ hskip)
    | zero =>
      rw [occurrencesFrom]
      cases hfront : p before (c :: (pre ++ post)) with
      | none => exact hbehind 0 (Nat.zero_le _)
      | some found =>
        obtain ⟨b, rest'⟩ := found
        have hend : post.length ≤ rest'.length :=
          hclear [] (c :: pre) b rest' rfl (by simp) hfront
        obtain ⟨o, ho, hfacts⟩ := hbehind ((c :: (pre ++ post)).length - rest'.length - 1)
          (by simp only [List.length_cons, List.length_append]; omega)
        exact ⟨o, List.mem_cons_of_mem _ ho, hfacts⟩

/-- A match of a pattern that leaves the end of the text. -/
theorem isMatch_of_mem_occurrencesFrom
    (hrest : ∀ {before cs a rest}, p before cs = some (a, rest) → rest <:+ cs)
    {before : Option Char} {offset skip : Nat} {cs : List Char} {o : Occurrence α}
    (h : o ∈ occurrencesFrom p before offset skip cs) : o.IsMatch p before offset skip cs := by
  obtain ⟨pre, post, rest, rfl, hskip, hread, hstart, hstop⟩ :=
    exists_match_of_mem_occurrencesFrom h
  obtain ⟨phrase, rfl⟩ := hrest hread
  rw [List.length_append, Nat.add_sub_cancel, List.take_left] at hstop
  exact ⟨pre, phrase, rest, rfl, hskip, hread, hstart, hstop⟩

/-- The search goes on behind the characters that belong to a match already found. -/
theorem le_start_of_mem_occurrencesFrom {before : Option Char} {offset skip : Nat}
    {cs : List Char} {o : Occurrence α} (h : o ∈ occurrencesFrom p before offset skip cs) :
    offset + byteSize (cs.take skip) ≤ o.start := by
  fun_induction occurrencesFrom p before offset skip cs with
  | case1 => cases h
  | case2 before offset skip c cs ih =>
    have := ih h
    rw [List.take_succ_cons, byteSize_cons]
    omega
  | case3 before offset c cs a rest hread length ih =>
    rcases List.mem_cons.mp h with rfl | h
    · simp
    · have := ih h
      simp only [List.take_zero, byteSize_nil]
      omega
  | case4 before offset c cs hnone ih =>
    have := ih h
    simp only [List.take_zero, byteSize_nil] at this ⊢
    omega

/-- **The matches are listed in order**, each behind the end of the one before it. -/
theorem occurrencesFrom_pairwise (p : Pattern α) (before : Option Char) (offset skip : Nat)
    (cs : List Char) :
    (occurrencesFrom p before offset skip cs).Pairwise fun o o' => o.stop ≤ o'.start := by
  fun_induction occurrencesFrom p before offset skip cs with
  | case1 => exact .nil
  | case2 before offset skip c cs ih => exact ih
  | case3 before offset c cs a rest hread length ih =>
    refine .cons (fun o ho => ?_) ih
    have hlow := le_start_of_mem_occurrencesFrom ho
    cases hlength : length with
    | zero =>
      simp only [List.take_zero, byteSize_nil]
      omega
    | succ n =>
      rw [hlength, Nat.add_sub_cancel] at hlow
      simp only [List.take_succ_cons, byteSize_cons]
      omega
  | case4 before offset c cs hnone ih => exact ih

/-- No match is empty. -/
theorem start_lt_stop_of_mem_occurrences (h : p.Separated) {cs : List Char} {offset : Nat}
    {o : Occurrence α} (ho : o ∈ occurrences p cs offset) : o.start < o.stop := by
  obtain ⟨pre, phrase, rest, -, hread, -, hstop⟩ := (mem_occurrences_iff h).mp ho
  obtain ⟨phrase', hne, heq⟩ := h.consumes hread
  obtain rfl : phrase = phrase' := List.append_cancel_right heq
  have := byteSize_pos hne
  omega

end Search

/-! ### Phrases on a word boundary -/

/-- The phrase `xs` stands in the text at the byte offset `k`, behind a word boundary. -/
def OnBoundary (cs : List Char) (k : Nat) (xs : List Char) : Prop :=
  ∃ pre post, cs = pre ++ (xs ++ post) ∧ byteSize pre = k ∧
    isBoundary pre.getLast? (xs ++ post) = true

/-- What follows a phrase does not matter for the boundary in front of it. -/
theorem isBoundary_append {before : Option Char} {xs : List Char} (hxs : xs ≠ [])
    (post : List Char) : isBoundary before (xs ++ post) = isBoundary before xs := by
  obtain ⟨x, xs, rfl⟩ := List.exists_cons_of_ne_nil hxs
  rfl

/-- At the edge of a window, a left neighbour that is no word character counts as none. -/
theorem isBoundary_getLast?_append {pre : List Char}
    (hedge : ∀ c ∈ pre.getLast?, isWord c = false) (as rest : List Char) :
    isBoundary (pre ++ as).getLast? rest = isBoundary as.getLast? rest := by
  cases hlast : as.getLast? with
  | some c => rw [List.getLast?_append, hlast, Option.some_or]
  | none =>
    rw [List.getLast?_eq_none_iff.mp hlast, List.append_nil]
    cases hpre : pre.getLast? with
    | none => rfl
    | some c =>
      rw [hpre] at hedge
      simp [isBoundary, hedge c rfl]

/-- **A window shows just the phrases inside it**, if its left neighbour is no word character. -/
theorem onBoundary_window_iff {pre mid post xs : List Char} {k : Nat}
    (hedge : ∀ c ∈ pre.getLast?, isWord c = false) (hxs : xs ≠ []) :
    (OnBoundary (pre ++ (mid ++ post)) k xs ∧ byteSize pre ≤ k ∧
        k + byteSize xs ≤ byteSize pre + byteSize mid) ↔
      ∃ as bs, mid = as ++ (xs ++ bs) ∧ k = byteSize pre + byteSize as ∧
        isBoundary as.getLast? (xs ++ bs) = true := by
  constructor
  · rintro ⟨⟨pre', post', htext, rfl, hboundary⟩, hlow, hhigh⟩
    obtain ⟨as, rfl, hmid⟩ := exists_append_of_byteSize_le htext hlow
    rw [← List.append_assoc as] at hmid
    obtain ⟨bs, hbs, -⟩ := exists_append_of_byteSize_le hmid.symm (by
      rw [byteSize_append] at hhigh ⊢
      omega)
    refine ⟨as, bs, by rw [hbs, List.append_assoc], byteSize_append _ _, ?_⟩
    rw [isBoundary_getLast?_append hedge] at hboundary
    rw [isBoundary_append hxs] at hboundary ⊢
    exact hboundary
  · rintro ⟨as, bs, rfl, rfl, hboundary⟩
    refine ⟨⟨pre ++ as, bs ++ post, by simp, byteSize_append _ _, ?_⟩, by omega, ?_⟩
    · rw [isBoundary_getLast?_append hedge]
      rw [isBoundary_append hxs] at hboundary ⊢
      exact hboundary
    · rw [byteSize_append, byteSize_append]
      omega

/-! ### Windows -/

/-- The part of a text between two offsets: both are character boundaries, and the character in
front of the part is no word character. -/
def IsWindow (text : List Char) (start stop : Nat) : Prop :=
  ∃ pre mid post, text = pre ++ (mid ++ post) ∧ byteSize pre = start ∧
    start + byteSize mid = stop ∧ ∀ c ∈ pre.getLast?, isWord c = false

theorem isWindow_whole (text : List Char) : IsWindow text 0 (byteSize text) :=
  ⟨[], text, [], by simp, rfl, by simp, by simp⟩

/-- What a search in a window lists are phrases of the text that lie in the window, if the pattern
reads nothing but certain phrases behind word boundaries. -/
theorem exists_phrase_of_mem_occurrences {α : Type} {p : Pattern α} {P : α → List Char → Prop}
    (hmatch : ∀ {before cs a rest}, p before cs = some (a, rest) →
      isBoundary before cs = true ∧ ∃ phrase, P a phrase ∧ phrase ≠ [] ∧ cs = phrase ++ rest)
    {text : List Char} {start stop : Nat} (hwindow : IsWindow text start stop)
    {o : Occurrence α} (h : o ∈ occurrences p (slice text start stop) start) :
    ∃ phrase, P o.value phrase ∧ OnBoundary text o.start phrase ∧
      o.stop = o.start + byteSize phrase ∧ start ≤ o.start ∧ o.stop ≤ stop := by
  obtain ⟨pre, mid, post, rfl, rfl, rfl, hedge⟩ := hwindow
  rw [slice_append] at h
  have hrest : ∀ {before cs a rest}, p before cs = some (a, rest) → rest <:+ cs := by
    intro before cs a rest hread
    obtain ⟨-, phrase, -, -, rfl⟩ := hmatch hread
    exact List.suffix_append phrase rest
  obtain ⟨as, phrase, rest, hmid, -, hread, hstart, hstop⟩ :=
    isMatch_of_mem_occurrencesFrom hrest h
  rw [Option.or_none] at hread
  obtain ⟨hboundary, phrase', hP, hne, heq⟩ := hmatch hread
  obtain rfl : phrase = phrase' := List.append_cancel_right heq
  obtain ⟨hon, hlow, hhigh⟩ := (onBoundary_window_iff hedge hne).mpr
    ⟨as, rest, hmid, hstart, hboundary⟩
  exact ⟨phrase, hP, hon, hstop, hlow, hstop ▸ hhigh⟩

/-- **The matches in a window** of a pattern that reads certain phrases behind word boundaries are
the phrases of the text that lie in the window. -/
theorem mem_occurrences_window_iff {α : Type} {p : Pattern α} {P : α → List Char → Prop}
    (hseparated : p.Separated)
    (hmatch : ∀ {before cs a rest}, p before cs = some (a, rest) ↔
      isBoundary before cs = true ∧ ∃ phrase, P a phrase ∧ cs = phrase ++ rest)
    {text : List Char} {start stop : Nat} (hwindow : IsWindow text start stop)
    {o : Occurrence α} :
    o ∈ occurrences p (slice text start stop) start ↔
      ∃ phrase, P o.value phrase ∧ OnBoundary text o.start phrase ∧
        o.stop = o.start + byteSize phrase ∧ start ≤ o.start ∧ o.stop ≤ stop := by
  constructor
  · refine exists_phrase_of_mem_occurrences (fun hread => ?_) hwindow
    obtain ⟨phrase, hne, rfl⟩ := hseparated.consumes hread
    obtain ⟨hboundary, phrase', hP, heq⟩ := hmatch.mp hread
    obtain rfl : phrase = phrase' := List.append_cancel_right heq
    exact ⟨hboundary, phrase, hP, hne, rfl⟩
  · obtain ⟨pre, mid, post, rfl, rfl, rfl, hedge⟩ := hwindow
    rw [slice_append, mem_occurrences_iff hseparated]
    rintro ⟨phrase, hP, hon, hstop, hlow, hhigh⟩
    have hphrase : phrase ≠ [] := by
      rintro rfl
      obtain ⟨_, _, -, -, hboundary⟩ := hon
      obtain ⟨phrase, hne, heq⟩ := hseparated.consumes (hmatch.mpr ⟨hboundary, [], hP, rfl⟩)
      exact hne (List.append_cancel_right heq).symm
    obtain ⟨as, rest, hmid, hstart, hboundary⟩ := (onBoundary_window_iff hedge hphrase).mp
      ⟨hon, hlow, hstop ▸ hhigh⟩
    exact ⟨as, phrase, rest, hmid, hmatch.mpr ⟨hboundary, phrase, hP, rfl⟩, hstart, hstop⟩

end Telemetry.Text
