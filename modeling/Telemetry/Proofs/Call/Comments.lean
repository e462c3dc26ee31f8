import Mathlib.Data.List.Sort
import Telemetry.Proofs.Call.Implicit
import Telemetry.Proofs.Call.Sites
import Telemetry.Proofs.Source.Agreement

/-!
What comments can do to call detection. Of two texts that agree outside their comments, everything
that the searches read is the same but for one thing: the look back from a bare call does not know
comments. It passes the newline that ends a line comment as a blank and reads the comment itself.

* `StandsAt.of_agree`, `mem_scopes_of_agree` — phrases in code and scope blocks are the same.
* `sameVerdict_of_agree` — so is the verdict on a bare call, unless a line comment stands directly
  in front of it.
* `calls_eq_iff_of_agree` — so the calls are the same exactly if the verdicts are the same on the
  bare calls behind line comments.
-/

namespace Telemetry.Call

open Telemetry.Text Telemetry.Source

/-! ### The parameter of a block -/

section Parameter

variable {x y : List Char}

theorem trimStart_append_slash : trimStart (x ++ '/' :: y) = trimStart x ++ '/' :: y :=
  dropWhile_append_cons (by decide)

theorem identifier?_append_slash :
    identifier? (x ++ '/' :: y) =
      (identifier? x).map fun found => (found.1, found.2 ++ '/' :: y) := by
  have hslash : isIdentifierPart '/' = false := by decide
  cases x with
  | nil => rfl
  | cons c x =>
    simp only [List.cons_append, identifier?, takeWhile_append_cons hslash,
      dropWhile_append_cons hslash]
    split <;> rfl

theorem skipType?_append_slash : skipType? (x ++ '/' :: y) = (skipType? x).map (· ++ '/' :: y) := by
  have hother : ∀ {cs : List Char}, (∀ rest, cs ≠ ':' :: rest) → skipType? cs = some cs := by
    intro cs hcs
    unfold skipType?
    split
    · exact absurd rfl (hcs _)
    · rfl
  by_cases hcolon : ∃ rest, x = ':' :: rest
  · obtain ⟨rest, rfl⟩ := hcolon
    simp only [List.cons_append, skipType?, trimStart_append_slash]
    cases trimStart rest with
    | nil => rfl
    | cons c cs =>
      simp only [List.cons_append, dropWhile_append_cons (p := isTypePart) (x := '/') (by decide),
        trimStart_append_slash]
      split <;> rfl
  · rw [hother (fun rest h => hcolon ⟨rest, h⟩), hother, Option.map_some]
    intro rest h
    cases x with
    | nil => exact absurd h (by simp)
    | cons c x => exact hcolon ⟨x, by rw [(List.cons.inj h).1]⟩

/-- A parameter is read in front of a comment or not at all. -/
theorem parameter?_append_slash : parameter? (x ++ '/' :: y) = parameter? x := by
  unfold parameter?
  rw [trimStart_append_slash, identifier?_append_slash, Option.bind_map]
  refine Option.bind_congr fun found _ => ?_
  simp only [Function.comp_apply, trimStart_append_slash, skipType?_append_slash, Option.bind_map]
  refine Option.bind_congr fun rest _ => ?_
  match rest with
  | [] => rfl
  | [c] =>
    simp only [List.cons_append, List.nil_append]
    split
    · simp_all
    · rfl
  | c :: d :: rest =>
    simp only [List.cons_append]
    split <;> split <;> simp_all

/-- The front of a text up to a number of bytes gives the same parameter, whatever a comment in it
contains. -/
theorem parameter?_takeBytes_append_slash (n : Nat) :
    parameter? (takeBytes n (x ++ '/' :: y)) = parameter? (takeBytes n x) := by
  rw [takeBytes_append_eq]
  split
  · rename_i hle
    rw [takeBytes_of_byteSize_le hle]
    cases n - byteSize x with
    | zero => rw [takeBytes_zero, List.append_nil]
    | succ m =>
      rw [takeBytes, if_pos (by rw [utf8Size_of_ascii (by decide)]; omega), parameter?_append_slash]
  · rfl

end Parameter

/-! ### Phrases are code -/

section Code

variable {text receiver phrase : List Char} {k o : Nat} {s : Site}

/-- The closing mark of a phrase in code is code. -/
theorem StandsAt.isCode_closing (hphrase : Unquoted phrase) (hne : phrase ≠ [])
    (hstands : StandsAt text phrase k o) :
    o < (encode text).length ∧ (Coverage.ofBytes (encode text)).isCode o = true := by
  have hlen := hstands.closing_lt
  obtain ⟨⟨pre, post, htext, rfl, -⟩, hcode, hends⟩ := hstands
  have hpos := byteSize_pos hne
  obtain rfl : o = byteSize pre + (byteSize phrase - 1) := by omega
  exact ⟨by rwa [length_encode],
    isCode_of_spelledAt ⟨pre, post, htext, rfl⟩ hphrase hcode (by omega)⟩

theorem unquoted_parenthesis : Unquoted ['('] := by
  simp [Unquoted]

theorem unquoted_brace : Unquoted ['\x7b'] := by
  simp [Unquoted]

theorem Bare.unquoted {word : List Char} {closer : Char} (hcloser : Unquoted [closer])
    (hword : isIdentifier word = true) (hphrase : Bare word closer phrase) : Unquoted phrase := by
  simp only [Unquoted, List.mem_singleton] at hcloser
  exact ⟨hphrase.not_mem (by constructor <;> decide) hcloser.1 hword,
    hphrase.not_mem (by constructor <;> decide) hcloser.2.1 hword,
    hphrase.not_mem (by constructor <;> decide) hcloser.2.2 hword⟩

theorem Member.unquoted {word : List Char} {closer : Char} (hcloser : Unquoted [closer])
    (hreceiver : isIdentifier receiver = true) (hword : isIdentifier word = true)
    (hphrase : Member receiver word closer phrase) : Unquoted phrase := by
  simp only [Unquoted, List.mem_singleton] at hcloser
  exact ⟨hphrase.not_mem (by constructor <;> decide) hcloser.1 hreceiver hword,
    hphrase.not_mem (by constructor <;> decide) hcloser.2.1 hreceiver hword,
    hphrase.not_mem (by constructor <;> decide) hcloser.2.2 hreceiver hword⟩

theorem MemberSite.isCode_opening (hreceiver : isIdentifier receiver = true)
    (hmethod : isIdentifier s.method.toList = true) (hsite : MemberSite text receiver k s) :
    s.opening < (encode text).length ∧
      (Coverage.ofBytes (encode text)).isCode s.opening = true := by
  obtain ⟨phrase, hphrase, hstands⟩ := hsite
  exact hstands.isCode_closing (hphrase.unquoted unquoted_parenthesis hreceiver hmethod)
    hphrase.ne_nil

theorem BareSite.isCode_opening (hmethod : isIdentifier s.method.toList = true)
    (hsite : BareSite text k s) :
    s.opening < (encode text).length ∧
      (Coverage.ofBytes (encode text)).isCode s.opening = true := by
  obtain ⟨phrase, hphrase, hstands⟩ := hsite
  exact hstands.isCode_closing (hphrase.unquoted unquoted_parenthesis hmethod) hphrase.ne_nil

/-- The parenthesis of a call is code. -/
theorem IsCall.isCode_opening (hreceiver : isIdentifier receiver = true)
    (hmethod : isIdentifier s.method.toList = true) (hcall : IsCall text receiver s) :
    s.opening < (encode text).length ∧
      (Coverage.ofBytes (encode text)).isCode s.opening = true := by
  cases hcall with
  | direct hsite => exact hsite.isCode_opening hreceiver hmethod
  | parameter hb haccess _ hsite =>
    exact hsite.isCode_opening ((isWindow_of_mem_scopes hreceiver hb).2 _ haccess) hmethod
  | implicit _ _ _ hsite _ => exact hsite.isCode_opening hmethod

end Code

/-! ### The look back -/

section LookBack

variable {text receiver receiver' : List Char} {b : Scope} {s : Site}

/-- Inside a block the verdict on a bare call is the one on the whole text in front of it. -/
theorem isImplicitCall_slice {pre post : List Char} (hreceiver : isIdentifier receiver = true)
    (hb : b ∈ scopes text receiver) (htext : text = pre ++ post) (hlt : b.opening < byteSize pre) :
    isImplicitCall (slice text (b.opening + 1) (byteSize pre)).reverse =
      isImplicitCall pre.reverse := by
  obtain ⟨_, _, _, -, -, hclosing, -⟩ := (mem_scopes_iff hreceiver).mp hb
  obtain ⟨front, rest, hfront, hsize⟩ :=
    spelledAt_of_ascii (by decide) (matchingBrace_bounds hclosing).1
  rw [← List.append_assoc] at hfront
  have hone : byteSize (front ++ ['\x7b']) = b.opening + 1 := by
    rw [byteSize_concat_of_ascii (by decide), hsize]
  obtain ⟨mid, rfl, rfl⟩ := exists_append_of_byteSize_le (hfront.symm.trans htext) (by omega)
  rw [htext, List.append_assoc, ← hone, byteSize_append (front ++ ['\x7b']), slice_append,
    List.reverse_append, List.reverse_concat]
  exact (isImplicitCall_append (by decide) (Or.inr ⟨_, _, rfl, isCloser_brace⟩)).symm

/-- A line comment ends in front of an offset, with blanks and the marks of an access behind it at
most. -/
def BehindLineComment (text : List Char) (k : Nat) : Prop :=
  ∃ front lead post, text = (front ++ '\n' :: lead) ++ post ∧
    byteSize (front ++ '\n' :: lead) = k ∧ Exposing lead ∧
    CommentAt (encode text) (byteSize front)

/-- An identifier in front of an access does not reach behind a newline that blanks and marks
follow. -/
theorem byteSize_le_of_exposing {front lead pre access : List Char} (hlead : Exposing lead)
    (hreceiver : isIdentifier receiver = true)
    (h : front ++ '\n' :: lead = pre ++ (receiver ++ access)) :
    byteSize (pre ++ receiver) ≤ byteSize front := by
  by_contra hgt
  rw [← List.append_assoc] at h
  obtain ⟨mid, hmid, hbehind⟩ := exists_append_of_byteSize_le h (by omega)
  have hmidne : mid ≠ [] := by
    rintro rfl
    rw [hmid, List.append_nil] at hgt
    exact hgt (Nat.le_refl _)
  obtain ⟨c, hc⟩ : ∃ c, receiver.getLast? = some c :=
    ⟨_, List.getLast?_eq_some_getLast (ne_nil_of_isIdentifier hreceiver)⟩
  -- the last character of the identifier would stand behind the newline
  have hcmid : c ∈ mid := by
    have hlast := congrArg List.getLast? hmid
    rw [List.getLast?_append, hc, List.getLast?_append,
      List.getLast?_eq_some_getLast hmidne] at hlast
    simp only [Option.some_or, Option.some.injEq] at hlast
    exact hlast ▸ List.getLast_mem hmidne
  have hpart := isIdentifierPart_of_mem hreceiver (List.mem_of_mem_getLast? hc)
  have hcbehind : c ∈ '\n' :: lead := hbehind ▸ List.mem_append_left _ hcmid
  rcases List.mem_cons.mp hcbehind with rfl | hclead
  · exact absurd hpart (by decide)
  · rw [hlead.isIdentifierPart_eq_false c hclead] at hpart
    cases hpart

/-- A bare call directly behind a line comment is not the member of a receiver: the comment would
stand in the middle of the access. -/
theorem not_memberSite_of_behindLineComment {k start : Nat}
    (hreceiver : isIdentifier receiver = true) (hmethod : isIdentifier s.method.toList = true)
    (hsite : BareSite text k s) (hbehind : BehindLineComment text k) :
    ¬ MemberSite text receiver start s := by
  intro hmember
  obtain ⟨pre, hpre, hbare⟩ := hsite.methodBehind hmethod
  obtain ⟨receiverFront, access, hstart, hqualified⟩ := hmember.methodBehind
  obtain ⟨rfl, -⟩ := hbare.unique hmethod hmethod hqualified rfl
  obtain ⟨-, bl, rest, -, htext, hopening⟩ := hbare
  obtain ⟨front, lead, post, htext', hsize, hexposing, hcomment⟩ := hbehind
  rw [List.append_assoc] at htext
  obtain ⟨heq, -⟩ := append_inj_of_byteSize (htext'.symm.trans htext) (hsize.trans hpre.symm)
  have hlow := byteSize_le_of_exposing hexposing hreceiver heq
  obtain ⟨phrase, hphrase, ⟨⟨pre, post, hspelled, hpreSize, -⟩, hcode, hends⟩⟩ := hmember
  have hunquoted := hphrase.unquoted unquoted_parenthesis hreceiver hmethod
  have hhigh : byteSize front < start + byteSize phrase := by
    rw [byteSize_append] at hopening hsize
    rw [byteSize_cons] at hsize
    have := Char.utf8Size_pos '\n'
    omega
  -- the end of the comment would lie in the phrase, which is code
  rw [byteSize_append] at hlow
  have hinside := isCode_of_spelledAt ⟨pre, post, hspelled, hpreSize⟩ hunquoted hcode
    (j := byteSize front - start) (by omega)
  rw [Nat.add_sub_cancel' (by omega)] at hinside
  exact not_commentAt_of_isCode hinside hcomment

/-- A call that is the member of no receiver is listed by the verdict on its bare form, which is the
same in every block around it. -/
theorem IsCall.isImplicitCall_slice {start : Nat} (hreceiver : isIdentifier receiver = true)
    (hreceiver' : isIdentifier receiver' = true) (hmethod : isIdentifier s.method.toList = true)
    (hbare : ∀ receiver start, isIdentifier receiver = true → ¬ MemberSite text receiver start s)
    (hcall : IsCall text receiver' s) (hb : b ∈ scopes text receiver) (hlt : b.opening < start)
    (hsite : BareSite text start s) :
    isImplicitCall (slice text (b.opening + 1) start).reverse = true := by
  cases hcall with
  | direct hmember => exact absurd hmember (hbare _ _ hreceiver')
  | parameter hb' haccess _ hmember =>
    exact absurd hmember (hbare _ _ ((isWindow_of_mem_scopes hreceiver' hb').2 _ haccess))
  | implicit hb' haccess hinside hsite' hbefore =>
    obtain ⟨pre, rfl, hbehind⟩ := hsite.methodBehind hmethod
    obtain ⟨pre', rfl, hbehind'⟩ := hsite'.methodBehind hmethod
    obtain ⟨rfl, -⟩ := hbehind.unique hmethod hmethod hbehind' rfl
    obtain ⟨-, bl, rest, -, htext, -⟩ := hbehind
    rw [List.append_assoc] at htext
    rw [Call.isImplicitCall_slice hreceiver hb htext hlt]
    rw [Call.isImplicitCall_slice hreceiver' hb' htext hinside.1] at hbefore
    exact hbefore

end LookBack

/-! ### From one text to the other -/

section Agree

variable {text text' receiver : List Char} {s : Site}
  (h : AgreeOutsideComments (encode text) (encode text'))

include h

/-- **A phrase in code** stands in both texts. -/
theorem StandsAt.of_agree {phrase : List Char} {k o : Nat} (hphrase : Unquoted phrase)
    (hne : phrase ≠ []) (hstands : StandsAt text phrase k o) : StandsAt text' phrase k o := by
  obtain ⟨⟨pre, post, htext, rfl, hboundary⟩, hcode, hends⟩ := hstands
  have hspelled : SpelledAt text (byteSize pre) phrase := ⟨pre, post, htext, rfl⟩
  obtain ⟨pre', post', htext', hsize⟩ := spelledAt_of_agree h hne
    (fun j hj => not_commentAt_of_isCode (isCode_of_spelledAt hspelled hphrase hcode hj)) hspelled
  obtain ⟨u, u', v, rfl, rfl, hcommon⟩ := exists_common_front h htext htext' hsize
    (by simp [hne]) (not_commentAt_of_isCode hcode)
  -- the same character stands in front of the phrase
  have hlast : (u' ++ v).getLast? = (u ++ v).getLast? := by
    rw [List.getLast?_append, List.getLast?_append]
    rcases hcommon with ⟨rfl, rfl⟩ | ⟨w, w', c, rfl, rfl, -, -⟩
    · rfl
    · rw [List.getLast?_concat, List.getLast?_concat]
  refine ⟨⟨u' ++ v, post', htext', hsize, ?_⟩, h.isCode_eq _ ▸ hcode, hends⟩
  rw [hlast]
  rw [isBoundary_append hne] at hboundary ⊢
  exact hboundary

theorem MemberSite.of_agree {start : Nat} (hreceiver : isIdentifier receiver = true)
    (hmethod : isIdentifier s.method.toList = true) (hsite : MemberSite text receiver start s) :
    MemberSite text' receiver start s := by
  obtain ⟨phrase, hphrase, hstands⟩ := hsite
  have hunquoted := hphrase.unquoted unquoted_parenthesis hreceiver hmethod
  exact ⟨phrase, hphrase, hstands.of_agree h hunquoted hphrase.ne_nil⟩

theorem BareSite.of_agree {start : Nat} (hmethod : isIdentifier s.method.toList = true)
    (hsite : BareSite text start s) : BareSite text' start s := by
  obtain ⟨phrase, hphrase, hstands⟩ := hsite
  have hunquoted := hphrase.unquoted unquoted_parenthesis hmethod
  exact ⟨phrase, hphrase, hstands.of_agree h hunquoted hphrase.ne_nil⟩

/-- **The parameter of a block** is the same in both texts. -/
theorem parameterName_of_agree {opening : Nat} (closing : Nat)
    (hcode : (Coverage.ofBytes (encode text)).isCode opening = true)
    (hbrace : (encode text)[opening]? = some (byte '\x7b')) :
    parameterName text opening closing = parameterName text' opening closing := by
  have hbrace' := hbrace
  rw [h.getElem?_eq_of_isCode hcode] at hbrace'
  obtain ⟨pre, post, htext, rfl⟩ := spelledAt_of_ascii (by decide) hbrace
  obtain ⟨pre', post', htext', hsize⟩ := spelledAt_of_ascii (by decide) hbrace'
  rw [← List.append_assoc] at htext htext'
  have hone : ∀ cs, byteSize (cs ++ ['\x7b']) = byteSize cs + 1 :=
    byteSize_concat_of_ascii (by decide)
  have hfree : ¬ CommentAt (encode text) (byteSize (pre ++ ['\x7b']) - 1) := by
    rw [hone, Nat.add_sub_cancel]
    exact not_commentAt_of_isCode hcode
  obtain ⟨v, w, w', rfl, rfl, hends⟩ := exists_common_behind h htext htext'
    (by rw [hone, hone, hsize]) (by simp) hfree
  have hslice : ∀ stop, slice text (byteSize pre + 1) stop =
      takeBytes (stop - (byteSize pre + 1)) (v ++ w) := by
    intro stop
    rw [slice, ← hone, htext, dropBytes_append]
  have hslice' : ∀ stop, slice text' (byteSize pre + 1) stop =
      takeBytes (stop - (byteSize pre + 1)) (v ++ w') := by
    intro stop
    rw [slice, ← hsize, ← hone, htext', dropBytes_append]
  rw [parameterName, parameterName, hslice, hslice']
  rcases hends with ⟨rfl, rfl⟩ | ⟨z, z', rfl, rfl⟩
  · rfl
  · rw [parameter?_takeBytes_append_slash, parameter?_takeBytes_append_slash]

/-- **The scope blocks** are the same in both texts. -/
theorem mem_scopes_of_agree (hreceiver : isIdentifier receiver = true) {b : Scope}
    (hb : b ∈ scopes text receiver) : b ∈ scopes text' receiver := by
  rw [mem_scopes_iff hreceiver] at hb ⊢
  obtain ⟨w, phrase, k, hphrase, hstands, hclosing, haccess⟩ := hb
  have hunquoted := hphrase.unquoted unquoted_brace hreceiver (isIdentifier_spelling w)
  obtain ⟨hlt, hcode⟩ := hstands.isCode_closing hunquoted hphrase.ne_nil
  refine ⟨w, phrase, k, hphrase, hstands.of_agree h hunquoted hphrase.ne_nil, ?_, ?_⟩
  · rw [← h.matchingBrace_eq hlt hcode, hclosing]
  · rw [← parameterName_of_agree h _ hcode (matchingBrace_bounds hclosing).1, haccess]

/-- **The look back sees no comment**, unless a line comment ends directly in front of the call. -/
theorem isImplicitCall_eq_of_agree {pre post pre' post' : List Char} (htext : text = pre ++ post)
    (htext' : text' = pre' ++ post') (hsize : byteSize pre' = byteSize pre) (hpost : post ≠ [])
    (hcode : (Coverage.ofBytes (encode text)).isCode (byteSize pre) = true)
    (hbehind : ¬ BehindLineComment text (byteSize pre)) :
    isImplicitCall pre.reverse = isImplicitCall pre'.reverse := by
  obtain ⟨u, u', v, rfl, rfl, hcommon⟩ := exists_common_front h htext htext' hsize hpost
    (not_commentAt_of_isCode hcode)
  rcases hcommon with ⟨rfl, rfl⟩ | ⟨w, w', c, rfl, rfl, hmark, hcomment⟩
  · rfl
  · have hstops : (isAlphanumeric c || c == '_') = false ∧
        ((lookBack v.reverse).2 ≠ [] ∨ ∀ y, Stops (c :: y)) := by
      rcases hmark with rfl | rfl
      · -- a newline is a blank, so the look back must have found something before it
        refine ⟨by decide, Or.inl fun hnothing => hbehind ?_⟩
        exact ⟨w, v, post, by simpa using htext, by simp, exposing_of_lookBack hnothing, hcomment⟩
      · exact ⟨by decide, Or.inr fun y => ⟨'/', y, rfl, by constructor <;> decide⟩⟩
    have hfront : ∀ w : List Char, isImplicitCall ((w ++ [c]) ++ v).reverse =
        isImplicitCall v.reverse := by
      intro w
      rw [List.reverse_append, List.reverse_concat]
      exact isImplicitCall_append hstops.1 (hstops.2.imp_right fun hall => hall _)
    rw [hfront, hfront]

end Agree

/-! ### The calls -/

section Calls

variable {methods receivers : List String} {text text' receiver : List Char} {s : Site}

/-- The text between the brace of a block and a bare call gets the same verdict in two texts. -/
def SameVerdict (text text' : List Char) (b : Scope) (start : Nat) : Prop :=
  isImplicitCall (slice text (b.opening + 1) start).reverse =
    isImplicitCall (slice text' (b.opening + 1) start).reverse

/-- **The verdict on a bare call inside a block is the same** in both texts, unless a line comment
ends directly in front of the call. -/
theorem sameVerdict_of_agree (h : AgreeOutsideComments (encode text) (encode text')) {b : Scope}
    {start : Nat} (hreceiver : isIdentifier receiver = true) (hb : b ∈ scopes text receiver)
    (hlt : b.opening < start) (hmethod : isIdentifier s.method.toList = true)
    (hsite : BareSite text start s) (hbehind : ¬ BehindLineComment text start) :
    SameVerdict text text' b start := by
  have hb' := mem_scopes_of_agree h hreceiver hb
  obtain ⟨_, -, ⟨⟨pre', post', htext', hsize, -⟩, -, -⟩⟩ := hsite.of_agree h hmethod
  obtain ⟨phrase, hphrase, ⟨⟨pre, post, htext, rfl, -⟩, hcode, -⟩⟩ := hsite
  have hverdict := isImplicitCall_eq_of_agree h htext htext' hsize (by simp [hphrase.ne_nil]) hcode
    hbehind
  rw [SameVerdict, isImplicitCall_slice hreceiver hb htext hlt, hverdict, ← hsize]
  exact (isImplicitCall_slice hreceiver hb' htext' (hsize ▸ hlt)).symm

/-- **A call of one text is a call of the other**, if the verdicts on its bare form agree. -/
theorem IsCall.of_agree (h : AgreeOutsideComments (encode text) (encode text'))
    (hreceiver : isIdentifier receiver = true) (hmethod : isIdentifier s.method.toList = true)
    (hverdict : ∀ b ∈ scopes text receiver, ∀ start, b.access = .implicit → b.Encloses start s →
      BareSite text start s → SameVerdict text text' b start)
    (hcall : IsCall text receiver s) : IsCall text' receiver s := by
  cases hcall with
  | direct hsite => exact .direct (hsite.of_agree h hreceiver hmethod)
  | parameter hb haccess hinside hsite =>
    have hname := (isWindow_of_mem_scopes hreceiver hb).2 _ haccess
    exact .parameter (mem_scopes_of_agree h hreceiver hb) haccess hinside
      (hsite.of_agree h hname hmethod)
  | implicit hb haccess hinside hsite hbefore =>
    refine .implicit (mem_scopes_of_agree h hreceiver hb) haccess hinside
      (hsite.of_agree h hmethod) ?_
    rw [← hverdict _ hb _ haccess hinside hsite, hbefore]

/-- The records of one text are records of the other, if the verdicts on bare calls agree. -/
theorem mem_calls_of_agree (h : AgreeOutsideComments (encode text) (encode text'))
    (hmethods : ∀ m ∈ methods, isIdentifier m.toList = true)
    (hreceivers : ∀ r ∈ receivers, isIdentifier r.toList = true)
    (hverdict : ∀ r ∈ receivers, ∀ b ∈ scopes text r.toList, ∀ start s, s.method ∈ methods →
      b.access = .implicit → b.Encloses start s → BareSite text start s →
        SameVerdict text text' b start)
    {c : Record} (hc : c ∈ calls methods text receivers) : c ∈ calls methods text' receivers := by
  rw [mem_calls_iff hmethods hreceivers] at hc ⊢
  obtain ⟨hmethod, ⟨r, hr, hcall⟩, hargs⟩ := hc
  obtain ⟨hlt, hcode⟩ := hcall.isCode_opening (hreceivers r hr) (hmethods _ hmethod)
  refine ⟨hmethod, ⟨r, hr, hcall.of_agree h (hreceivers r hr) (hmethods _ hmethod) ?_⟩, ?_⟩
  · intro b hb start
    exact hverdict r hr b hb start c.toSite hmethod
  · rw [hargs, h.arguments_eq hlt hcode]

/-- A bare call in a block with an implicit receiver, directly behind a line comment: the look back
from it reads the comment. -/
structure ReadsComment (methods receivers : List String) (text : List Char) (b : Scope)
    (start : Nat) (s : Site) : Prop where
  scope : ∃ r ∈ receivers, b ∈ scopes text r.toList
  access : b.access = .implicit
  method : s.method ∈ methods
  inside : b.Encloses start s
  site : BareSite text start s
  behind : BehindLineComment text start

/-- **What comments can do to call detection.** Two texts that agree outside their comments have the
same calls, arguments included, exactly if the text in front of every bare call that stands directly
behind a line comment gets the same verdict in both. -/
theorem calls_eq_iff_of_agree (h : AgreeOutsideComments (encode text) (encode text'))
    (hmethods : ∀ m ∈ methods, isIdentifier m.toList = true)
    (hreceivers : ∀ r ∈ receivers, isIdentifier r.toList = true) :
    calls methods text receivers = calls methods text' receivers ↔
      ∀ b start s, ReadsComment methods receivers text b start s →
        SameVerdict text text' b start := by
  constructor
  · rintro heq b start s ⟨⟨r, hr, hb⟩, haccess, hmethod, hinside, hsite, hbehind⟩
    have hidentifier := hmethods _ hmethod
    have hbare : ∀ receiver start, isIdentifier receiver = true →
        ¬ MemberSite text receiver start s := fun receiver start hreceiver =>
      not_memberSite_of_behindLineComment hreceiver hidentifier hsite hbehind
    have hbare' : ∀ receiver start, isIdentifier receiver = true →
        ¬ MemberSite text' receiver start s := fun receiver start hreceiver hmember =>
      hbare receiver start hreceiver (hmember.of_agree h.symm hreceiver hidentifier)
    have hb' := mem_scopes_of_agree h (hreceivers r hr) hb
    have hsite' := hsite.of_agree h hidentifier
    refine Bool.eq_iff_iff.mpr ⟨fun hbefore => ?_, fun hbefore => ?_⟩
    · have hlisted := (exists_record_iff hmethods hreceivers).mpr
        ⟨hmethod, r, hr, .implicit hb haccess hinside hsite hbefore⟩
      rw [heq, exists_record_iff hmethods hreceivers] at hlisted
      obtain ⟨-, r', hr', hcall⟩ := hlisted
      exact hcall.isImplicitCall_slice (hreceivers r hr) (hreceivers r' hr') hidentifier hbare' hb'
        hinside.1 hsite'
    · have hlisted := (exists_record_iff hmethods hreceivers).mpr
        ⟨hmethod, r, hr, .implicit hb' haccess hinside hsite' hbefore⟩
      rw [← heq, exists_record_iff hmethods hreceivers] at hlisted
      obtain ⟨-, r', hr', hcall⟩ := hlisted
      exact hcall.isImplicitCall_slice (hreceivers r hr) (hreceivers r' hr') hidentifier hbare hb
        hinside.1 hsite
  · intro hsame
    have hverdict : ∀ r ∈ receivers, ∀ b ∈ scopes text r.toList, ∀ start s, s.method ∈ methods →
        b.access = .implicit → b.Encloses start s → BareSite text start s →
          SameVerdict text text' b start := by
      intro r hr b hb start s hmethod haccess hinside hsite
      by_cases hbehind : BehindLineComment text start
      · exact hsame b start s ⟨⟨r, hr, hb⟩, haccess, hmethod, hinside, hsite, hbehind⟩
      · exact sameVerdict_of_agree h (hreceivers r hr) hb hinside.1 (hmethods _ hmethod) hsite
          hbehind
    have : Std.Irrefl fun c d : Record => c.opening < d.opening := ⟨fun _ => Nat.lt_irrefl _⟩
    have : Std.Antisymm fun c d : Record => c.opening < d.opening :=
      ⟨fun _ _ hlt hgt => absurd hlt (Nat.lt_asymm hgt)⟩
    refine (calls_pairwise methods text receivers).eq_of_mem_iff (calls_pairwise _ _ _) fun c =>
      ⟨mem_calls_of_agree h hmethods hreceivers hverdict,
        mem_calls_of_agree h.symm hmethods hreceivers ?_⟩
    intro r hr b hb' start s hmethod haccess hinside hsite'
    exact (hverdict r hr b (mem_scopes_of_agree h.symm (hreceivers r hr) hb') start s hmethod
      haccess hinside (hsite'.of_agree h.symm (hmethods _ hmethod))).symm

/-- One word of a comment decides whether the call behind it is found. -/
theorem calls_eq_iff_of_agree_fun :
    AgreeOutsideComments (encode "r.apply \x7b // fun\n counter(\"x\") \x7d".toList)
      (encode "r.apply \x7b // foo\n counter(\"x\") \x7d".toList) ∧
    calls ["counter"] "r.apply \x7b // fun\n counter(\"x\") \x7d".toList ["r"] = [] ∧
    calls ["counter"] "r.apply \x7b // foo\n counter(\"x\") \x7d".toList ["r"] =
      [⟨⟨"counter", 25⟩, ["\"x\""]⟩] ∧
    ∃ b start s, ReadsComment ["counter"] ["r"]
      "r.apply \x7b // fun\n counter(\"x\") \x7d".toList b start s := by
  have hagree : AgreeOutsideComments (encode "r.apply \x7b // fun\n counter(\"x\") \x7d".toList)
      (encode "r.apply \x7b // foo\n counter(\"x\") \x7d".toList) := by decide +kernel
  have hfun : calls ["counter"] "r.apply \x7b // fun\n counter(\"x\") \x7d".toList ["r"] = [] := by
    rw [calls_eq_map_of_pairwise (by decide) (by decide +kernel)]
    decide +kernel
  have hfoo : calls ["counter"] "r.apply \x7b // foo\n counter(\"x\") \x7d".toList ["r"] =
      [⟨⟨"counter", 25⟩, ["\"x\""]⟩] := by
    rw [calls_eq_map_of_pairwise (by decide) (by decide +kernel)]
    decide +kernel
  have hmethods : ∀ m ∈ ["counter"], isIdentifier m.toList = true := by decide
  have hreceivers : ∀ r ∈ ["r"], isIdentifier r.toList = true := by decide
  refine ⟨hagree, hfun, hfoo, ?_⟩
  by_contra hnone
  have heq := (calls_eq_iff_of_agree hagree hmethods hreceivers).mpr
    fun b start s hreads => absurd ⟨b, start, s, hreads⟩ hnone
  rw [hfun, hfoo] at heq
  cases heq

end Calls

end Telemetry.Call
