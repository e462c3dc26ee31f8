import Telemetry.Entry
import Telemetry.Proofs.Call.Phrases
import Telemetry.Proofs.Receiver
import Telemetry.Proofs.Source.Resynchronisation

/-!
The calls of a text. `IsCall` says what a call on a receiver is, without regard to the searches that
find it, and the searches are shown to find exactly these.

* `mem_memberSites_iff`, `mem_bareSites_iff`, `mem_scopes_iff` — what one search lists.
* `exists_mem_claim`, `claim_pairwise` — the first search that finds an offset keeps it, and no
  offset is kept twice.
* `MethodBehind.unique` — the offset of the parenthesis determines the method.
* `mem_calls_iff`, `calls_pairwise` — a record is listed exactly if it is a call on a receiver with
  its arguments, and the list is in source order.
* `calls_exact` — the offsets listed are those of the calls.
* `mem_recorded_iff` — the methods and receivers that the analysis asks for are identifiers, so for
  it all of this holds in every text.
-/

namespace Telemetry.Call

open Telemetry.Text Telemetry.Source

/-- A phrase on a word boundary that starts in code, up to and including the mark at `closing`. -/
structure StandsAt (text phrase : List Char) (start closing : Nat) : Prop where
  onBoundary : OnBoundary text start phrase
  code : (Coverage.ofBytes (encode text)).isCode start = true
  ends : start + byteSize phrase = closing + 1

/-- A call of a method of the receiver, which starts at `start`. -/
def MemberSite (text receiver : List Char) (start : Nat) (s : Site) : Prop :=
  ∃ phrase, Member receiver s.method.toList '(' phrase ∧ StandsAt text phrase start s.opening

/-- A call of a method without a receiver, which starts at `start`. -/
def BareSite (text : List Char) (start : Nat) (s : Site) : Prop :=
  ∃ phrase, Bare s.method.toList '(' phrase ∧ StandsAt text phrase start s.opening

/-- A call that starts at `start` lies between the braces of a block. -/
def Scope.Encloses (b : Scope) (start : Nat) (s : Site) : Prop :=
  b.opening < start ∧ s.opening < b.closing

/-- **A call on a receiver**: directly, through the parameter of a block, or inside a block where
the receiver is implicit. -/
inductive IsCall (text receiver : List Char) (s : Site) : Prop where
  | direct {start : Nat} (hsite : MemberSite text receiver start s)
  | parameter {b : Scope} {name : String} {start : Nat} (hb : b ∈ scopes text receiver)
      (haccess : b.access = .parameter name) (hinside : b.Encloses start s)
      (hsite : MemberSite text name.toList start s)
  | implicit {b : Scope} {start : Nat} (hb : b ∈ scopes text receiver)
      (haccess : b.access = .implicit) (hinside : b.Encloses start s)
      (hsite : BareSite text start s)
      (hbefore : isImplicitCall (slice text (b.opening + 1) start).reverse = true)

/-! ### The searches -/

section Searches

variable {methods : List String} {text receiver : List Char} {start stop : Nat} {s : Site}

/-- What the search for calls on a receiver lists, whatever text the receiver is. -/
theorem of_mem_memberSites (hwindow : IsWindow text start stop)
    (h : s ∈ memberSites methods text (Coverage.ofBytes (encode text)) receiver start stop) :
    s.method ∈ methods ∧ isIdentifier s.method.toList = true ∧
      ∃ k, MemberSite text receiver k s ∧ start ≤ k ∧ s.opening < stop := by
  obtain ⟨o, ho, hkeep⟩ := List.mem_filterMap.mp h
  obtain ⟨phrase, ⟨hidentifier, hphrase⟩, hon, hstop, hlow, hhigh⟩ :=
    exists_phrase_of_mem_occurrences
      (P := fun m phrase => isIdentifier m.toList = true ∧ Member receiver m.toList '(' phrase)
      (fun hread => by
        obtain ⟨hboundary, phrase, hphrase, rfl⟩ := memberCall_eq_some_iff.mp hread
        exact ⟨hboundary, phrase, hphrase, hphrase.2.ne_nil, rfl⟩) hwindow ho
  split at hkeep
  · rename_i hcode
    simp only [Bool.and_eq_true, List.contains_iff_mem] at hcode
    obtain rfl := Option.some.inj hkeep
    have hpos := byteSize_pos hphrase.ne_nil
    exact ⟨hcode.2, hidentifier, o.start, ⟨phrase, hphrase, hon, hcode.1, by simp only; omega⟩,
      hlow, by simp only; omega⟩
  · cases hkeep

/-- **Calls on a receiver in a window.** -/
theorem mem_memberSites_iff (hmethods : ∀ m ∈ methods, isIdentifier m.toList = true)
    (hreceiver : isIdentifier receiver = true) (hwindow : IsWindow text start stop) :
    s ∈ memberSites methods text (Coverage.ofBytes (encode text)) receiver start stop ↔
      s.method ∈ methods ∧
        ∃ k, MemberSite text receiver k s ∧ start ≤ k ∧ s.opening < stop := by
  constructor
  · intro h
    obtain ⟨hmethod, -, hsite⟩ := of_mem_memberSites hwindow h
    exact ⟨hmethod, hsite⟩
  · rintro ⟨hmethod, k, ⟨phrase, hphrase, hon, hcode, hends⟩, hlow, hhigh⟩
    refine List.mem_filterMap.mpr ⟨⟨k, k + byteSize phrase, s.method⟩,
      (mem_occurrences_window_iff (memberCall_separated hreceiver) memberCall_eq_some_iff
        hwindow).mpr
        ⟨phrase, ⟨hmethods _ hmethod, hphrase⟩, hon, rfl, hlow, by simp only; omega⟩, ?_⟩
    simp only [hcode, List.contains_iff_mem.mpr hmethod, Bool.and_self, if_true, hends,
      Nat.add_sub_cancel]

/-- What the search for bare calls lists, whatever the methods are. -/
theorem of_mem_bareSites (hwindow : IsWindow text start stop)
    (h : s ∈ bareSites methods text (Coverage.ofBytes (encode text)) start stop) :
    s.method ∈ methods ∧
      ∃ k, BareSite text k s ∧ start ≤ k ∧ s.opening < stop ∧
        isImplicitCall (slice text start k).reverse = true := by
  obtain ⟨o, ho, hkeep⟩ := List.mem_filterMap.mp h
  obtain ⟨phrase, ⟨hmethod, hphrase⟩, hon, hstop, hlow, hhigh⟩ :=
    exists_phrase_of_mem_occurrences
      (P := fun m phrase => m ∈ methods ∧ Bare m.toList '(' phrase)
      (fun hread => by
        obtain ⟨hboundary, phrase, hphrase, rfl⟩ := of_bareCall hread
        exact ⟨hboundary, phrase, hphrase, hphrase.2.ne_nil, rfl⟩) hwindow ho
  rw [takeBytes_slice (by omega)] at hkeep
  split at hkeep
  · rename_i hcode
    rw [Bool.and_eq_true] at hcode
    obtain rfl := Option.some.inj hkeep
    have hpos := byteSize_pos hphrase.ne_nil
    exact ⟨hmethod, o.start, ⟨phrase, hphrase, hon, hcode.1, by simp only; omega⟩, hlow,
      by simp only; omega, hcode.2⟩
  · cases hkeep

/-- **Bare calls in a window**, judged by the part of the window in front of them. -/
theorem mem_bareSites_iff (hmethods : ∀ m ∈ methods, isIdentifier m.toList = true)
    (hwindow : IsWindow text start stop) :
    s ∈ bareSites methods text (Coverage.ofBytes (encode text)) start stop ↔
      s.method ∈ methods ∧
        ∃ k, BareSite text k s ∧ start ≤ k ∧ s.opening < stop ∧
          isImplicitCall (slice text start k).reverse = true := by
  constructor
  · exact of_mem_bareSites hwindow
  · rintro ⟨hmethod, k, ⟨phrase, hphrase, hon, hcode, hends⟩, hlow, hhigh, hbefore⟩
    refine List.mem_filterMap.mpr ⟨⟨k, k + byteSize phrase, s.method⟩,
      (mem_occurrences_window_iff (bareCall_separated hmethods) (bareCall_eq_some_iff hmethods)
        hwindow).mpr ⟨phrase, ⟨hmethod, hphrase⟩, hon, rfl, hlow, by simp only; omega⟩, ?_⟩
    have hpos := byteSize_pos hphrase.ne_nil
    rw [takeBytes_slice (by simp only; omega)]
    simp only [hcode, hbefore, Bool.and_self, if_true, hends, Nat.add_sub_cancel]

/-- **Scope blocks** are opened by the phrases of the scope words in code and end with the
matching brace. -/
theorem mem_scopes_iff (hreceiver : isIdentifier receiver = true) {b : Scope} :
    b ∈ scopes text receiver ↔
      ∃ w phrase k, Member receiver (ScopeWord.spelling w).toList '\x7b' phrase ∧
        StandsAt text phrase k b.opening ∧
        matchingBrace (encode text) b.opening = some b.closing ∧
        b.access = if w.isImplicit then .implicit
          else .parameter (parameterName text b.opening b.closing) := by
  have hslice : text = slice text 0 (byteSize text) := by
    simpa using (slice_append [] text []).symm
  have hoccurrences := fun o => mem_occurrences_window_iff (o := o)
    (P := fun w phrase => Member receiver (ScopeWord.spelling w).toList '\x7b' phrase)
    (scopeOpening_separated hreceiver) scopeOpening_eq_some_iff (isWindow_whole text)
  rw [← hslice] at hoccurrences
  simp only [scopes, List.mem_filterMap, hoccurrences]
  constructor
  · rintro ⟨o, ⟨phrase, hphrase, hon, hstop, -, -⟩, hscope⟩
    unfold scopeAt? at hscope
    split at hscope
    · rename_i hcode
      obtain ⟨closing, hclosing, rfl⟩ := Option.map_eq_some_iff.mp hscope
      have hpos := byteSize_pos hphrase.ne_nil
      exact ⟨o.value, phrase, o.start, hphrase, ⟨hon, hcode, by simp only; omega⟩, hclosing, rfl⟩
    · cases hscope
  · rintro ⟨w, phrase, k, hphrase, ⟨hon, hcode, hends⟩, hclosing, haccess⟩
    refine ⟨⟨k, k + byteSize phrase, w⟩, ⟨phrase, hphrase, hon, rfl, Nat.zero_le _, ?_⟩, ?_⟩
    · obtain ⟨pre, post, rfl, rfl, -⟩ := hon
      simp only [byteSize_append]
      omega
    · simp only [scopeAt?, hcode, if_true, hends, Nat.add_sub_cancel, hclosing, Option.map_some,
        ← haccess]

/-- A phrase ends inside the text. -/
theorem StandsAt.closing_lt {phrase : List Char} {closing : Nat}
    (h : StandsAt text phrase start closing) : closing < byteSize text := by
  obtain ⟨⟨pre, post, rfl, rfl, -⟩, -, hends⟩ := h
  simp only [byteSize_append]
  omega

/-- A block divides a text at its braces. -/
theorem exists_block_of_matchingBrace {opening closing : Nat}
    (h : matchingBrace (encode text) opening = some closing) :
    ∃ pre body post, text = pre ++ '\x7b' :: (body ++ '\x7d' :: post) ∧ byteSize pre = opening ∧
      opening + 1 + byteSize body = closing := by
  obtain ⟨hopening, hlt, hclosing⟩ := matchingBrace_bounds h
  obtain ⟨pre, post, htext, rfl⟩ := spelledAt_of_ascii (by decide) hopening
  obtain ⟨pre', post', htext', rfl⟩ := spelledAt_of_ascii (by decide) hclosing
  have hsize : byteSize (pre ++ ['\x7b']) = byteSize pre + 1 :=
    byteSize_concat_of_ascii (by decide) pre
  rw [htext, ← List.append_assoc] at htext'
  obtain ⟨body, rfl, hpost⟩ := exists_append_of_byteSize_le htext' (by omega)
  refine ⟨pre, body, post', ?_, rfl, ?_⟩
  · rw [htext, hpost]
    simp
  · rw [byteSize_append _ body, hsize]

/-- The inside of a block is a window: a brace is its left neighbour. -/
theorem isWindow_of_matchingBrace {opening closing : Nat}
    (h : matchingBrace (encode text) opening = some closing) :
    IsWindow text (opening + 1) closing := by
  obtain ⟨pre, body, post, htext, rfl, hclosing⟩ := exists_block_of_matchingBrace h
  refine ⟨pre ++ ['\x7b'], body, '\x7d' :: post, ?_, byteSize_concat_of_ascii (by decide) pre,
    hclosing, ?_⟩
  · rw [htext, List.append_assoc, List.singleton_append]
  · intro c hc
    rw [List.getLast?_concat] at hc
    cases hc
    decide

theorem isIdentifier_parameterName (opening closing : Nat) :
    isIdentifier (parameterName text opening closing).toList = true := by
  unfold parameterName
  generalize slice text (opening + 1) (min (opening + 1 + parameterReach) closing) = start
  cases hname : parameter? start with
  | none => decide
  | some name =>
    obtain ⟨⟨word, rest⟩, hword, hread⟩ := Option.bind_eq_some_iff.mp hname
    obtain ⟨rest', -, hread⟩ := Option.bind_eq_some_iff.mp hread
    split at hread
    · obtain rfl := Option.some.inj hread
      rw [Option.getD_some, String.toList_ofList]
      exact (identifier?_eq_some_iff.mp hword).2.1
    · cases hread

/-- A block of a receiver is a window, and its parameter is an identifier. -/
theorem isWindow_of_mem_scopes (hreceiver : isIdentifier receiver = true) {b : Scope}
    (hb : b ∈ scopes text receiver) :
    IsWindow text (b.opening + 1) b.closing ∧
      ∀ name, b.access = .parameter name → isIdentifier name.toList = true := by
  obtain ⟨w, phrase, k, -, -, hclosing, haccess⟩ := (mem_scopes_iff hreceiver).mp hb
  refine ⟨isWindow_of_matchingBrace hclosing, fun name hname => ?_⟩
  rw [haccess] at hname
  split at hname
  · cases hname
  · cases hname
    exact isIdentifier_parameterName _ _

/-- **Calls inside a block.** -/
theorem mem_scopeSites_iff (hmethods : ∀ m ∈ methods, isIdentifier m.toList = true)
    (hreceiver : isIdentifier receiver = true) {b : Scope} (hb : b ∈ scopes text receiver) :
    s ∈ scopeSites methods text (Coverage.ofBytes (encode text)) b ↔
      s.method ∈ methods ∧ ∃ k, b.Encloses k s ∧
        ((∃ name, b.access = .parameter name ∧ MemberSite text name.toList k s) ∨
          b.access = .implicit ∧ BareSite text k s ∧
            isImplicitCall (slice text (b.opening + 1) k).reverse = true) := by
  obtain ⟨hwindow, hname⟩ := isWindow_of_mem_scopes hreceiver hb
  cases haccess : b.access with
  | implicit =>
    simp only [scopeSites, haccess, mem_bareSites_iff hmethods hwindow, Scope.Encloses]
    constructor
    · rintro ⟨hmethod, k, hsite, hlow, hhigh, hbefore⟩
      exact ⟨hmethod, k, ⟨hlow, hhigh⟩, Or.inr ⟨trivial, hsite, hbefore⟩⟩
    · rintro ⟨hmethod, k, ⟨hlow, hhigh⟩, ⟨_, ⟨⟩, -⟩ | ⟨-, hsite, hbefore⟩⟩
      exact ⟨hmethod, k, hsite, hlow, hhigh, hbefore⟩
  | parameter name =>
    simp only [scopeSites, haccess, mem_memberSites_iff hmethods (hname name haccess) hwindow,
      Scope.Encloses]
    constructor
    · rintro ⟨hmethod, k, hsite, hlow, hhigh⟩
      exact ⟨hmethod, k, ⟨hlow, hhigh⟩, Or.inl ⟨name, rfl, hsite⟩⟩
    · rintro ⟨hmethod, k, ⟨hlow, hhigh⟩, ⟨_, ⟨⟩, hsite⟩ | ⟨⟨⟩, -⟩⟩
      exact ⟨hmethod, k, hsite, hlow, hhigh⟩

/-- **The searches list the calls** of the methods on the receivers. -/
theorem mem_sites_iff {receivers : List String}
    (hmethods : ∀ m ∈ methods, isIdentifier m.toList = true)
    (hreceivers : ∀ r ∈ receivers, isIdentifier r.toList = true) :
    s ∈ sites methods text receivers ↔
      s.method ∈ methods ∧ ∃ r ∈ receivers, IsCall text r.toList s := by
  simp only [sites, List.mem_append, List.mem_flatMap]
  constructor
  · rintro (⟨r, hr, hs⟩ | ⟨r, hr, b, hb, hs⟩)
    · obtain ⟨hmethod, k, hsite, -⟩ :=
        (mem_memberSites_iff hmethods (hreceivers r hr) (isWindow_whole text)).mp hs
      exact ⟨hmethod, r, hr, .direct hsite⟩
    · obtain ⟨hmethod, k, hinside, ⟨name, haccess, hsite⟩ | ⟨haccess, hsite, hbefore⟩⟩ :=
        (mem_scopeSites_iff hmethods (hreceivers r hr) hb).mp hs
      · exact ⟨hmethod, r, hr, .parameter hb haccess hinside hsite⟩
      · exact ⟨hmethod, r, hr, .implicit hb haccess hinside hsite hbefore⟩
  · rintro ⟨hmethod, r, hr, hcall⟩
    cases hcall with
    | direct hsite =>
      have hstop : s.opening < byteSize text := by
        obtain ⟨phrase, -, hstands⟩ := hsite
        exact hstands.closing_lt
      exact Or.inl ⟨r, hr, (mem_memberSites_iff hmethods (hreceivers r hr)
        (isWindow_whole text)).mpr ⟨hmethod, _, hsite, Nat.zero_le _, hstop⟩⟩
    | parameter hb haccess henclosed hsite =>
      exact Or.inr ⟨r, hr, _, hb, (mem_scopeSites_iff hmethods (hreceivers r hr) hb).mpr
        ⟨hmethod, _, henclosed, Or.inl ⟨_, haccess, hsite⟩⟩⟩
    | implicit hb haccess henclosed hsite hbefore =>
      exact Or.inr ⟨r, hr, _, hb, (mem_scopeSites_iff hmethods (hreceivers r hr) hb).mpr
        ⟨hmethod, _, henclosed, Or.inr ⟨haccess, hsite, hbefore⟩⟩⟩

end Searches

/-! ### Claiming offsets -/

section Claim

/-- Sites claimed one after the other, `kept` of them before: no offset is kept twice, nothing is
made up, and no offset is lost. -/
theorem foldl_claim (sites : List Site) {kept : List Site}
    (hkept : kept.Pairwise fun s t => s.opening ≠ t.opening) :
    let claimed := sites.foldl
      (fun kept s => if kept.any (·.opening == s.opening) then kept else kept ++ [s]) kept
    (claimed.Pairwise fun s t => s.opening ≠ t.opening) ∧
    (∀ s ∈ claimed, s ∈ kept ++ sites) ∧
    ∀ s ∈ kept ++ sites, ∃ t ∈ claimed, t.opening = s.opening := by
  induction sites generalizing kept with
  | nil => simpa using ⟨hkept, fun s hs => ⟨s, hs, rfl⟩⟩
  | cons s sites ih =>
    rw [List.foldl_cons]
    split
    · rename_i htaken
      obtain ⟨hpairwise, hsound, hcomplete⟩ := ih hkept
      obtain ⟨t, ht, htaken⟩ := List.any_eq_true.mp htaken
      refine ⟨hpairwise, fun u hu => ?_, fun u hu => ?_⟩
      · have := hsound u hu
        simp only [List.mem_append, List.mem_cons] at this ⊢
        tauto
      · simp only [List.mem_append, List.mem_cons] at hu
        rcases hu with hu | rfl | hu
        · exact hcomplete u (List.mem_append_left _ hu)
        · obtain ⟨v, hv, hopening⟩ := hcomplete t (List.mem_append_left _ ht)
          exact ⟨v, hv, hopening.trans (beq_iff_eq.mp htaken)⟩
        · exact hcomplete u (List.mem_append_right _ hu)
    · rename_i hfree
      have hnew : (kept ++ [s]).Pairwise fun s t => s.opening ≠ t.opening := by
        refine List.pairwise_append.mpr ⟨hkept, by simp, fun t ht u hu heq => hfree ?_⟩
        rw [List.mem_singleton.mp hu] at heq
        exact List.any_eq_true.mpr ⟨t, ht, beq_iff_eq.mpr heq⟩
      have hspec := ih hnew
      rw [List.append_assoc, List.singleton_append] at hspec
      exact hspec

theorem mem_of_mem_claim {sites : List Site} {s : Site} (h : s ∈ claim sites) : s ∈ sites :=
  (foldl_claim sites .nil).2.1 s h

theorem exists_mem_claim {sites : List Site} {s : Site} (h : s ∈ sites) :
    ∃ t ∈ claim sites, t.opening = s.opening :=
  (foldl_claim sites .nil).2.2 s h

theorem claim_pairwise (sites : List Site) :
    (claim sites).Pairwise fun s t => s.opening ≠ t.opening :=
  (foldl_claim sites .nil).1

end Claim

/-! ### The calls -/

section Calls

variable {methods receivers : List String} {text receiver : List Char} {s : Site}

/-- In front of a word behind a boundary stands no part of an identifier. -/
theorem isIdentifierPart_getLast?_of_isBoundary {word rest pre : List Char}
    (hword : isIdentifier word = true) (h : isBoundary pre.getLast? (word ++ rest) = true) :
    ∀ c ∈ pre.getLast?, isIdentifierPart c = false := by
  intro c hc
  cases hpart : isIdentifierPart c with
  | false => rfl
  | true =>
    have hhead : (word ++ rest).head?.any isWord = true := by
      cases word with
      | nil => exact absurd hword (by simp [isIdentifier])
      | cons d word =>
        exact isWord_of_isIdentifierPart (isIdentifierPart_of_mem hword List.mem_cons_self)
    rw [isBoundary, Option.mem_def.mp hc, hhead, Option.any_some,
      isWord_of_isIdentifierPart hpart] at h
    cases h

/-- In front of the member of an access stands a dot or a blank. -/
theorem getLast?_access (pre : List Char) {mark bl : List Char} (hmark : IsAccess mark)
    (hbl : Blanks bl) :
    ∀ c ∈ (pre ++ (mark ++ bl)).getLast?, c = '.' ∨ isBlank c = true := by
  intro c hc
  rw [← List.append_assoc, List.getLast?_append] at hc
  cases hlast : bl.getLast? with
  | some d =>
    rw [hlast] at hc
    cases hc
    exact Or.inr (hbl c (List.mem_of_mem_getLast? hlast))
  | none =>
    rw [hlast, Option.none_or, List.getLast?_append] at hc
    rcases hmark with rfl | rfl
    · exact Or.inl (Option.some.inj hc).symm
    · exact Or.inl (Option.some.inj hc).symm

theorem isIdentifierPart_of_dot_or_blank {c : Char} (h : c = '.' ∨ isBlank c = true) :
    isIdentifierPart c = false := by
  rcases h with rfl | h
  · decide
  · exact isIdentifierPart_of_isBlank h

/-- The word of a member stands behind its access, with blanks and the closing mark behind it. -/
theorem StandsAt.word_behind {word phrase : List Char} {closer : Char} {start closing : Nat}
    (hcloser : closer.toNat < 128) (hphrase : Member receiver word closer phrase)
    (h : StandsAt text phrase start closing) :
    ∃ pre access bl rest, byteSize pre = start ∧
      (∀ c ∈ (pre ++ (receiver ++ access)).getLast?, c = '.' ∨ isBlank c = true) ∧ Blanks bl ∧
      text = ((pre ++ (receiver ++ access)) ++ (word ++ bl)) ++ closer :: rest ∧
      byteSize ((pre ++ (receiver ++ access)) ++ (word ++ bl)) = closing := by
  obtain ⟨s₁, mark, s₂, _, -, hmark, hs₂, ⟨s₃, hs₃, rfl⟩, rfl⟩ := hphrase
  obtain ⟨⟨pre, post, rfl, rfl, -⟩, -, hends⟩ := h
  refine ⟨pre, s₁ ++ (mark ++ s₂), s₃, post, rfl, ?_, hs₃, by simp, ?_⟩
  · have hlast := getLast?_access (pre ++ (receiver ++ s₁)) hmark hs₂
    simpa using hlast
  · simp only [byteSize_append, byteSize_cons, byteSize_nil, utf8Size_of_ascii hcloser] at hends ⊢
    omega

/-- The method of a call stands behind `front`, read as a whole, with blanks and the parenthesis
behind it. -/
def MethodBehind (text front : List Char) (s : Site) : Prop :=
  (∀ c ∈ front.getLast?, isIdentifierPart c = false) ∧
    ∃ bl rest, Blanks bl ∧ text = (front ++ (s.method.toList ++ bl)) ++ '(' :: rest ∧
      byteSize (front ++ (s.method.toList ++ bl)) = s.opening

theorem MemberSite.methodBehind {start : Nat} (h : MemberSite text receiver start s) :
    ∃ pre access, byteSize pre = start ∧ MethodBehind text (pre ++ (receiver ++ access)) s := by
  obtain ⟨phrase, hphrase, hstands⟩ := h
  obtain ⟨pre, access, bl, rest, hstart, hlast, hbl, htext, hopening⟩ :=
    hstands.word_behind (by decide) hphrase
  exact ⟨pre, access, hstart, fun c hc => isIdentifierPart_of_dot_or_blank (hlast c hc), bl, rest,
    hbl, htext, hopening⟩

theorem BareSite.methodBehind {start : Nat} (hmethod : isIdentifier s.method.toList = true)
    (h : BareSite text start s) : ∃ pre, byteSize pre = start ∧ MethodBehind text pre s := by
  obtain ⟨_, ⟨bl, hbl, rfl⟩, ⟨pre, post, rfl, rfl, hboundary⟩, -, hends⟩ := h
  rw [List.append_assoc] at hboundary
  refine ⟨pre, rfl, isIdentifierPart_getLast?_of_isBoundary hmethod hboundary, bl, post, hbl,
    by simp, ?_⟩
  simp only [byteSize_append, byteSize_cons, byteSize_nil,
    utf8Size_of_ascii (c := '(') (by decide)] at hends ⊢
  omega

/-- **The offset of the parenthesis determines the method** and where it starts. -/
theorem MethodBehind.unique {front front' : List Char} {s' : Site}
    (hmethod : isIdentifier s.method.toList = true)
    (hmethod' : isIdentifier s'.method.toList = true) (h : MethodBehind text front s)
    (h' : MethodBehind text front' s') (hopening : s.opening = s'.opening) :
    front = front' ∧ s = s' := by
  obtain ⟨hfront, bl, rest, hbl, htext, hsize⟩ := h
  obtain ⟨hfront', bl', rest', hbl', htext', hsize'⟩ := h'
  obtain ⟨heq, -⟩ := append_inj_of_byteSize (htext.symm.trans htext')
    (by rw [hsize, hsize', hopening])
  obtain ⟨hfronts, hword, -⟩ := word_unique isIdentifierPart_of_isBlank hfront hfront'
    (run_of_isIdentifier hmethod) (run_of_isIdentifier hmethod') hbl hbl' heq
  refine ⟨hfronts, ?_⟩
  obtain ⟨method, opening⟩ := s
  obtain ⟨method', opening'⟩ := s'
  obtain rfl : opening = opening' := hopening
  obtain rfl : method = method' := String.toList_inj.mp hword
  rfl

theorem IsCall.methodBehind (hmethod : isIdentifier s.method.toList = true)
    (h : IsCall text receiver s) : ∃ front, MethodBehind text front s := by
  cases h with
  | direct hsite =>
    obtain ⟨pre, access, -, hbehind⟩ := hsite.methodBehind
    exact ⟨_, hbehind⟩
  | parameter _ _ _ hsite =>
    obtain ⟨pre, access, -, hbehind⟩ := hsite.methodBehind
    exact ⟨_, hbehind⟩
  | implicit _ _ _ hsite _ =>
    obtain ⟨pre, -, hbehind⟩ := hsite.methodBehind hmethod
    exact ⟨_, hbehind⟩

/-- **A record is listed** exactly if it is a call on one of the receivers, with its arguments. -/
theorem mem_calls_iff (hmethods : ∀ m ∈ methods, isIdentifier m.toList = true)
    (hreceivers : ∀ r ∈ receivers, isIdentifier r.toList = true) {c : Record} :
    c ∈ calls methods text receivers ↔
      c.method ∈ methods ∧ (∃ r ∈ receivers, IsCall text r.toList c.toSite) ∧
        c.args = (arguments (encode text) c.opening).map String.ofList := by
  have hsorted : ∀ m ∈ methods.mergeSort (fun a b => a ≤ b), isIdentifier m.toList = true :=
    fun m hm => hmethods m (List.mem_mergeSort.mp hm)
  have hsites : ∀ s, s ∈ sites (methods.mergeSort fun a b => a ≤ b) text receivers ↔
      s.method ∈ methods.mergeSort (fun a b => a ≤ b) ∧ ∃ r ∈ receivers, IsCall text r.toList s :=
    fun s => mem_sites_iff hsorted hreceivers
  simp only [calls, List.mem_map, List.mem_mergeSort]
  constructor
  · rintro ⟨s, hs, rfl⟩
    obtain ⟨hmethod, hcall⟩ := (hsites s).mp (mem_of_mem_claim hs)
    exact ⟨List.mem_mergeSort.mp hmethod, hcall, rfl⟩
  · rintro ⟨hmethod, ⟨r, hr, hcall⟩, hargs⟩
    obtain ⟨t, ht, hopening⟩ := exists_mem_claim
      ((hsites c.toSite).mpr ⟨List.mem_mergeSort.mpr hmethod, r, hr, hcall⟩)
    obtain ⟨hmethod', r', hr', hcall'⟩ := (hsites t).mp (mem_of_mem_claim ht)
    obtain ⟨front, hbehind⟩ := hcall.methodBehind (hmethods _ hmethod)
    obtain ⟨front', hbehind'⟩ := hcall'.methodBehind (hsorted _ hmethod')
    obtain ⟨-, rfl⟩ := hbehind'.unique (hsorted _ hmethod') (hmethods _ hmethod) hbehind hopening
    exact ⟨c.toSite, ht, by rw [← hargs]⟩

theorem exists_record_iff (hmethods : ∀ m ∈ methods, isIdentifier m.toList = true)
    (hreceivers : ∀ r ∈ receivers, isIdentifier r.toList = true) :
    (∃ c ∈ calls methods text receivers, c.toSite = s) ↔
      s.method ∈ methods ∧ ∃ r ∈ receivers, IsCall text r.toList s := by
  constructor
  · rintro ⟨c, hc, rfl⟩
    obtain ⟨hmethod, hcall, -⟩ := (mem_calls_iff hmethods hreceivers).mp hc
    exact ⟨hmethod, hcall⟩
  · rintro ⟨hmethod, hcall⟩
    exact ⟨⟨s, (arguments (encode text) s.opening).map String.ofList⟩,
      (mem_calls_iff hmethods hreceivers).mpr ⟨hmethod, hcall, rfl⟩, rfl⟩

/-- **The calls are listed in source order**, each offset once. -/
theorem calls_pairwise (methods : List String) (text : List Char) (receivers : List String) :
    (calls methods text receivers).Pairwise fun c d => c.opening < d.opening := by
  have hle := @List.pairwise_mergeSort Site (fun a b => decide (a.opening ≤ b.opening))
    (fun a b c hab hbc => by
      simp only [decide_eq_true_eq] at hab hbc ⊢
      omega)
    (fun a b => by
      simp only [Bool.or_eq_true, decide_eq_true_eq]
      omega)
    (claim (sites (methods.mergeSort fun a b => a ≤ b) text receivers))
  have hne := (List.mergeSort_perm
    (claim (sites (methods.mergeSort fun a b => a ≤ b) text receivers))
    fun a b => a.opening ≤ b.opening).symm.pairwise (claim_pairwise _) fun h => h.symm
  refine List.pairwise_map.mpr (hle.imp₂ (fun a b hle hne => ?_) hne)
  have := of_decide_eq_true hle
  simp only
  omega

/-- **Call detection is exact.** The calls are listed in source order, each offset once; the
offsets listed are those of the calls of the methods on the receivers, found directly, through a
parameter or with an implicit receiver; and each record names the method and the arguments of its
call. -/
theorem calls_exact (hmethods : ∀ m ∈ methods, isIdentifier m.toList = true)
    (hreceivers : ∀ r ∈ receivers, isIdentifier r.toList = true) :
    ((calls methods text receivers).Pairwise fun c d => c.opening < d.opening) ∧
    (∀ o, (∃ c ∈ calls methods text receivers, c.opening = o) ↔
      ∃ r ∈ receivers, ∃ m ∈ methods, IsCall text r.toList ⟨m, o⟩) ∧
    ∀ c ∈ calls methods text receivers,
      c.method ∈ methods ∧ (∃ r ∈ receivers, IsCall text r.toList c.toSite) ∧
        c.args = (arguments (encode text) c.opening).map String.ofList := by
  refine ⟨calls_pairwise methods text receivers, fun o => ⟨?_, ?_⟩,
    fun c hc => (mem_calls_iff hmethods hreceivers).mp hc⟩
  · rintro ⟨c, hc, rfl⟩
    obtain ⟨hmethod, r, hr, hcall⟩ := (exists_record_iff hmethods hreceivers).mp ⟨c, hc, rfl⟩
    exact ⟨r, hr, c.method, hmethod, hcall⟩
  · rintro ⟨r, hr, m, hm, hcall⟩
    obtain ⟨c, hc, hsite⟩ := (exists_record_iff hmethods hreceivers).mpr ⟨hm, r, hr, hcall⟩
    exact ⟨c, hc, by rw [hsite]⟩

/-- Methods in order and sites found in source order need no sorting. -/
theorem calls_eq_map_of_pairwise (hmethods : methods.Pairwise fun a b => decide (a ≤ b) = true)
    (hsites : (claim (sites methods text receivers)).Pairwise
      fun s t => decide (s.opening ≤ t.opening) = true) :
    calls methods text receivers = (claim (sites methods text receivers)).map
      fun s => { s with args := (arguments (encode text) s.opening).map String.ofList } := by
  simp only [calls]
  rw [List.mergeSort_of_pairwise hmethods, List.mergeSort_of_pairwise hsites]

/-- A direct call, and one with an implicit receiver in a block. -/
theorem calls_exact_block :
    calls ["counter", "gauge"] "r.gauge(y); r.apply \x7b counter(\"x\") \x7d".toList ["r"] =
      [⟨⟨"gauge", 7⟩, ["y"]⟩, ⟨⟨"counter", 29⟩, ["\"x\""]⟩] ∧
    ∃ r ∈ ["r"], ∃ m ∈ ["counter", "gauge"],
      IsCall "r.gauge(y); r.apply \x7b counter(\"x\") \x7d".toList r.toList ⟨m, 29⟩ := by
  have hcalls : calls ["counter", "gauge"]
      "r.gauge(y); r.apply \x7b counter(\"x\") \x7d".toList ["r"] =
        [⟨⟨"gauge", 7⟩, ["y"]⟩, ⟨⟨"counter", 29⟩, ["\"x\""]⟩] := by
    rw [calls_eq_map_of_pairwise (by decide +kernel) (by decide +kernel)]
    decide +kernel
  have hmethods : ∀ m ∈ ["counter", "gauge"], isIdentifier m.toList = true := by decide
  have hreceivers : ∀ r ∈ ["r"], isIdentifier r.toList = true := by decide
  exact ⟨hcalls, ((calls_exact hmethods hreceivers).2.1 29).mp (by rw [hcalls]; simp)⟩

end Calls

/-! ### What the analysis asks for -/

section Recorded

/-- The methods of meters and of events are identifiers. -/
theorem isIdentifier_of_recorded {methods : List String}
    (h : methods = MeterKind.all.map (·.name) ∨ methods = Severity.all.map (·.name)) :
    ∀ m ∈ methods, isIdentifier m.toList = true := by
  intro m hm
  rcases h with rfl | rfl
  · obtain ⟨k, -, rfl⟩ := List.mem_map.mp hm
    cases k <;> decide
  · obtain ⟨s, -, rfl⟩ := List.mem_map.mp hm
    cases s <;> decide

/-- **The analysis misses no call and makes none up**, in every text and for every receiver. -/
theorem mem_recorded_iff {methods : List String}
    (h : methods = MeterKind.all.map (·.name) ∨ methods = Severity.all.map (·.name))
    (receiver : Receiver) {text : List Char} {c : Record} :
    c ∈ calls methods text (receiver.namesIn text) ↔
      c.method ∈ methods ∧ (∃ r ∈ receiver.namesIn text, IsCall text r.toList c.toSite) ∧
        c.args = (arguments (encode text) c.opening).map String.ofList :=
  mem_calls_iff (isIdentifier_of_recorded h) fun _ => receiver.isIdentifier_of_mem_namesIn

/-- A call that the search for direct calls finds is recorded. -/
theorem mem_recorded_of_mem_memberSites {methods : List String}
    (h : methods = MeterKind.all.map (·.name) ∨ methods = Severity.all.map (·.name))
    {receiver : Receiver} {text : List Char} {r : String} (hr : r ∈ receiver.namesIn text)
    {s : Site} (hs : s ∈ memberSites methods text (Coverage.ofBytes (encode text)) r.toList 0
      (byteSize text)) :
    { s with args := (arguments (encode text) s.opening).map String.ofList } ∈
      calls methods text (receiver.namesIn text) := by
  obtain ⟨hmethod, k, hsite, -⟩ := (mem_memberSites_iff (isIdentifier_of_recorded h)
    (receiver.isIdentifier_of_mem_namesIn hr) (isWindow_whole text)).mp hs
  exact (mem_recorded_iff h receiver).mpr ⟨hmethod, ⟨r, hr, .direct hsite⟩, rfl⟩

end Recorded

end Telemetry.Call
