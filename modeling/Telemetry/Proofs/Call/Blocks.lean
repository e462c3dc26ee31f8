import Telemetry.Proofs.Call.Comments
import Telemetry.Proofs.Source.Nesting

/-!
Scope blocks are well formed, and they nest.

* `scopes_pairwise` — the blocks of a receiver are listed in the order of their opening braces.
* `wellFormed_of_mem_scopes` — a block lies between two braces of code; its inside and the part
  searched for a parameter are cut at character boundaries.
* `eq_of_opening_eq` — a brace opens one block, whoever the receiver is.
* `scopes_laminar` — so the blocks of any two receivers are equal, apart or one inside the other.
-/

namespace Telemetry.Call

open Telemetry.Text Telemetry.Source

/-- The part of a block that is searched for the name of a parameter. -/
def Scope.lookahead (b : Scope) (text : List Char) : List Char :=
  slice text (b.opening + 1) (min (b.opening + 1 + parameterReach) b.closing)

/-- A block of a text: two braces outside strings and comments, the text between them, and in front
of that text as much as fits into the reach of a parameter. -/
structure Scope.WellFormed (b : Scope) (text : List Char) : Prop where
  opening_lt_closing : b.opening < b.closing
  byte_opening : (encode text)[b.opening]? = some (byte '\x7b')
  byte_closing : (encode text)[b.closing]? = some (byte '\x7d')
  isCode_opening : (Coverage.ofBytes (encode text)).isCode b.opening = true
  isCode_closing : (Coverage.ofBytes (encode text)).isCode b.closing = true
  /-- The inside starts and ends at character boundaries. -/
  body : ∃ pre post, text = pre ++ '\x7b' :: (b.body text ++ '\x7d' :: post) ∧
    byteSize pre = b.opening ∧ b.opening + 1 + byteSize (b.body text) = b.closing
  /-- So does the part searched for a parameter: it ends where the next character does not fit. -/
  lookahead : ∃ rest, b.body text = b.lookahead text ++ rest ∧
    byteSize (b.lookahead text) ≤ parameterReach ∧
    ∀ c ∈ rest.head?, parameterReach < byteSize (b.lookahead text) + c.utf8Size

/-- One block lies strictly between the braces of another. -/
def Scope.Contains (a b : Scope) : Prop :=
  a.opening < b.opening ∧ b.closing < a.closing

/-- One block ends before the other starts. -/
def Scope.Apart (a b : Scope) : Prop :=
  a.closing < b.opening ∨ b.closing < a.opening

section Blocks

variable {text receiver receiver' : List Char} {a b : Scope}

/-- **The blocks of a receiver are listed in order.** -/
theorem scopes_pairwise (text : List Char) (hreceiver : isIdentifier receiver = true) :
    (scopes text receiver).Pairwise fun a b => a.opening < b.opening := by
  have hopening : ∀ {o : Occurrence ScopeWord} {b : Scope},
      scopeAt? text (encode text) (Coverage.ofBytes (encode text)) o = some b →
        b.opening = o.stop - 1 := by
    intro o b h
    unfold scopeAt? at h
    split at h
    · obtain ⟨closing, -, rfl⟩ := Option.map_eq_some_iff.mp h
      rfl
    · cases h
  refine List.pairwise_filterMap.mpr
    ((occurrencesFrom_pairwise (scopeOpening receiver) none 0 0 text).imp_of_mem ?_)
  intro o o' ho ho' hle a ha b hb
  have hpos := start_lt_stop_of_mem_occurrences (scopeOpening_separated hreceiver) ho
  have hpos' := start_lt_stop_of_mem_occurrences (scopeOpening_separated hreceiver) ho'
  rw [hopening ha, hopening hb]
  omega

/-- The slices between the braces of a block. -/
theorem slices_of_matchingBrace (h : matchingBrace (encode text) b.opening = some b.closing) :
    ∃ pre post, text = pre ++ '\x7b' :: (b.body text ++ '\x7d' :: post) ∧
      byteSize pre = b.opening ∧ b.opening + 1 + byteSize (b.body text) = b.closing ∧
      b.lookahead text = takeBytes parameterReach (b.body text) := by
  obtain ⟨pre, body, post, htext, hopening, hclosing⟩ := exists_block_of_matchingBrace h
  have hfront : text = (pre ++ ['\x7b']) ++ (body ++ '\x7d' :: post) := by simpa using htext
  have hsize : byteSize (pre ++ ['\x7b']) = b.opening + 1 := by
    rw [byteSize_concat_of_ascii (by decide), hopening]
  have hbody : b.body text = body := by
    rw [Scope.body, hfront, ← hclosing, ← hsize, slice_append]
  refine ⟨pre, post, by rw [hbody]; exact htext, hopening, by rw [hbody]; exact hclosing, ?_⟩
  have hreach : min (b.opening + 1 + parameterReach) b.closing - (b.opening + 1) =
      min parameterReach (byteSize body) := by omega
  have hdrop : dropBytes (b.opening + 1) text = body ++ '\x7d' :: post := by
    rw [hfront, ← hsize, dropBytes_append]
  rw [hbody, Scope.lookahead, slice, hreach, hdrop, takeBytes_append_eq]
  split
  · rename_i hfits
    rw [Nat.min_eq_right (by omega), Nat.sub_self, takeBytes_zero, List.append_nil,
      takeBytes_of_byteSize_le (by omega)]
  · rw [Nat.min_eq_left (by omega)]

theorem isCode_of_mem_scopes (hreceiver : isIdentifier receiver = true)
    (hb : b ∈ scopes text receiver) :
    b.opening < (encode text).length ∧
      (Coverage.ofBytes (encode text)).isCode b.opening = true := by
  obtain ⟨w, phrase, k, hphrase, hstands, -, -⟩ := (mem_scopes_iff hreceiver).mp hb
  exact hstands.isCode_closing
    (hphrase.unquoted unquoted_brace hreceiver (isIdentifier_spelling w)) hphrase.ne_nil

/-- **A block lies between two braces of code**, and it is cut at character boundaries. -/
theorem wellFormed_of_mem_scopes (hreceiver : isIdentifier receiver = true)
    (hb : b ∈ scopes text receiver) : b.WellFormed text := by
  obtain ⟨hlen, hcode⟩ := isCode_of_mem_scopes hreceiver hb
  obtain ⟨_, _, _, -, -, hclosing, -⟩ := (mem_scopes_iff hreceiver).mp hb
  obtain ⟨hopens, hlt, hcloses⟩ := matchingBrace_bounds hclosing
  obtain ⟨pre, post, htext, hopening, hsize, hlookahead⟩ := slices_of_matchingBrace hclosing
  exact {
    opening_lt_closing := hlt
    byte_opening := hopens
    byte_closing := hcloses
    isCode_opening := hcode
    isCode_closing := isCode_of_matchingBrace hlen hcode hclosing
    body := ⟨pre, post, htext, hopening, hsize⟩
    lookahead := by
      rw [hlookahead]
      exact takeBytes_longest parameterReach (b.body text) }

theorem spelling_injective {w w' : ScopeWord} (h : w.spelling = w'.spelling) : w = w' := by
  cases w <;> cases w' <;> simp [ScopeWord.spelling] at h ⊢

/-- **A brace opens one block.** The scope word in front of it is determined by the text, so two
receivers cannot share a brace with different accesses. -/
theorem eq_of_opening_eq (hreceiver : isIdentifier receiver = true)
    (hreceiver' : isIdentifier receiver' = true) (ha : a ∈ scopes text receiver)
    (hb : b ∈ scopes text receiver') (h : a.opening = b.opening) : a = b := by
  obtain ⟨w, phrase, k, hphrase, hstands, hclosing, haccess⟩ := (mem_scopes_iff hreceiver).mp ha
  obtain ⟨w', phrase', k', hphrase', hstands', hclosing', haccess'⟩ :=
    (mem_scopes_iff hreceiver').mp hb
  obtain ⟨pre, access, bl, rest, -, hlast, hbl, htext, hopening⟩ :=
    hstands.word_behind (by decide) hphrase
  obtain ⟨pre', access', bl', rest', -, hlast', hbl', htext', hopening'⟩ :=
    hstands'.word_behind (by decide) hphrase'
  obtain ⟨hfronts, -⟩ := append_inj_of_byteSize (htext.symm.trans htext')
    (by rw [hopening, hopening', h])
  obtain ⟨-, hspelling, -⟩ := word_unique isIdentifierPart_of_isBlank
    (fun c hc => isIdentifierPart_of_dot_or_blank (hlast c hc))
    (fun c hc => isIdentifierPart_of_dot_or_blank (hlast' c hc))
    (run_of_isIdentifier (isIdentifier_spelling w))
    (run_of_isIdentifier (isIdentifier_spelling w')) hbl hbl' hfronts
  have hword := spelling_injective (String.toList_inj.mp hspelling)
  rw [← h, hclosing] at hclosing'
  have hclosings := Option.some.inj hclosing'
  obtain ⟨opening, closing, access⟩ := a
  obtain ⟨opening', closing', access'⟩ := b
  simp only at h hclosings haccess haccess'
  subst h hclosings hword
  rw [haccess, haccess']

/-- A block that starts behind another one starts behind its end or lies inside it. -/
theorem nested_of_opening_lt (hreceiver : isIdentifier receiver = true)
    (hreceiver' : isIdentifier receiver' = true) (ha : a ∈ scopes text receiver)
    (hb : b ∈ scopes text receiver') (hlt : a.opening < b.opening) :
    a.closing < b.opening ∨ a.Contains b := by
  obtain ⟨-, hcode⟩ := isCode_of_mem_scopes hreceiver ha
  obtain ⟨-, hcode'⟩ := isCode_of_mem_scopes hreceiver' hb
  obtain ⟨_, _, _, -, -, hclosing, -⟩ := (mem_scopes_iff hreceiver).mp ha
  obtain ⟨_, _, _, -, -, hclosing', -⟩ := (mem_scopes_iff hreceiver').mp hb
  exact (matchingBrace_nested hcode hcode' hlt hclosing hclosing').imp_right fun h => ⟨hlt, h⟩

/-- **Scope blocks are well formed and nest.** The blocks of a receiver are listed in the order of
their opening braces and lie between braces of code; and the blocks of two receivers never overlap
in part. -/
theorem scopes_laminar (text : List Char) (hreceiver : isIdentifier receiver = true)
    (hreceiver' : isIdentifier receiver' = true) :
    ((scopes text receiver).Pairwise fun a b => a.opening < b.opening) ∧
    (∀ b ∈ scopes text receiver, b.WellFormed text) ∧
    ∀ a ∈ scopes text receiver, ∀ b ∈ scopes text receiver',
      a = b ∨ a.Apart b ∨ a.Contains b ∨ b.Contains a := by
  refine ⟨scopes_pairwise text hreceiver, fun b hb => wellFormed_of_mem_scopes hreceiver hb,
    fun a ha b hb => ?_⟩
  rcases Nat.lt_trichotomy a.opening b.opening with hlt | heq | hgt
  · rcases nested_of_opening_lt hreceiver hreceiver' ha hb hlt with hbefore | hinside
    · exact Or.inr (Or.inl (Or.inl hbefore))
    · exact Or.inr (Or.inr (Or.inl hinside))
  · exact Or.inl (eq_of_opening_eq hreceiver hreceiver' ha hb heq)
  · rcases nested_of_opening_lt hreceiver' hreceiver hb ha hgt with hbefore | hinside
    · exact Or.inr (Or.inl (Or.inr hbefore))
    · exact Or.inr (Or.inr (Or.inr hinside))

/-- A block of one receiver inside a block of another, behind a quoted brace. -/
theorem scopes_laminar_quoted :
    scopes "m.run \x7b '\x7d' e.let \x7b x \x7d \x7d".toList "m".toList = [⟨6, 24, .implicit⟩] ∧
    scopes "m.run \x7b '\x7d' e.let \x7b x \x7d \x7d".toList "e".toList =
      [⟨18, 22, .parameter "it"⟩] ∧
    Scope.WellFormed ⟨6, 24, .implicit⟩ "m.run \x7b '\x7d' e.let \x7b x \x7d \x7d".toList ∧
    ∀ a ∈ [(⟨6, 24, .implicit⟩ : Scope)], ∀ b ∈ [(⟨18, 22, .parameter "it"⟩ : Scope)],
      a = b ∨ a.Apart b ∨ a.Contains b ∨ b.Contains a := by
  have hm : scopes "m.run \x7b '\x7d' e.let \x7b x \x7d \x7d".toList "m".toList =
      [⟨6, 24, .implicit⟩] := by decide +kernel
  have he : scopes "m.run \x7b '\x7d' e.let \x7b x \x7d \x7d".toList "e".toList =
      [⟨18, 22, .parameter "it"⟩] := by decide +kernel
  obtain ⟨-, hwellFormed, hnested⟩ := @scopes_laminar "m".toList "e".toList
    "m.run \x7b '\x7d' e.let \x7b x \x7d \x7d".toList (by decide) (by decide)
  rw [hm] at hwellFormed hnested
  rw [he] at hnested
  exact ⟨hm, he, hwellFormed _ (List.mem_singleton_self _), hnested⟩

end Blocks

end Telemetry.Call
