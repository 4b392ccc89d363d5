import PropertyCascade.Proofs.Glob.Locality

/-!
# Matching braces

Which tokens stand between an opening brace and the brace that closes it, and how commas cut them
into options, as a relation. The relation follows the nesting of the braces, so that each scan for
braces and commas is explained by one induction along it: the search for the closing brace, the
search for the commas, and the machine that builds trees in one pass.

Every sequence of tokens starts with tokens whose braces are matched. What follows is a closing
brace or nothing, or an opening brace that is never closed.
-/

namespace PropertyCascade

namespace Glob

/-! ## Tokens whose braces are matched -/

namespace Token

open Scanner (followers)

/-- Tokens whose braces are matched, and the options into which their commas cut them. -/
inductive CutInto : List Token → List (List Token) → Prop where
  | nil : CutInto [] [[]]
  | comma {comma : Token} {tokens : List Token} {options : List (List Token)}
      (isComma : comma.kind = .plain ',') (later : CutInto tokens options) :
      CutInto (comma :: tokens) ([] :: options)
  | leaf {token : Token} {tokens option : List Token} {options : List (List Token)}
      (notOpening : token.kind ≠ .plain '{') (notClosing : token.kind ≠ .plain '}')
      (notComma : token.kind ≠ .plain ',') (later : CutInto tokens (option :: options)) :
      CutInto (token :: tokens) ((token :: option) :: options)
  | brace {opening closing : Token} {inner tokens option : List Token}
      {innerOptions options : List (List Token)} (isOpening : opening.kind = .plain '{')
      (isClosing : closing.kind = .plain '}') (within : CutInto inner innerOptions)
      (later : CutInto tokens (option :: options)) :
      CutInto (opening :: inner ++ closing :: tokens)
        ((opening :: inner ++ closing :: option) :: options)

/-- Tokens in which every brace that has no match is an opening brace, and which start with one if
there are any. -/
inductive Unclosed : List Token → Prop where
  | nil : Unclosed []
  | opening {opening : Token} {part rest : List Token} {options : List (List Token)}
      (isOpening : opening.kind = .plain '{') (cut : CutInto part options)
      (later : Unclosed rest) : Unclosed (opening :: part ++ rest)

theorem CutInto.exists_cons {tokens : List Token} {options : List (List Token)}
    (cut : CutInto tokens options) : ∃ option others, options = option :: others := by
  cases cut with
  | nil => exact ⟨_, _, rfl⟩
  | comma => exact ⟨_, _, rfl⟩
  | leaf => exact ⟨_, _, rfl⟩
  | brace => exact ⟨_, _, rfl⟩

/-- Every sequence of tokens starts with tokens whose braces are matched. -/
theorem exists_cutInto (tokens : List Token) :
    ∃ part rest options, tokens = part ++ rest ∧ CutInto part options ∧
      (Unclosed rest ∨ ∃ closing after, rest = closing :: after ∧ closing.kind = .plain '}') := by
  induction length : tokens.length using Nat.strong_induction_on generalizing tokens with
  | _ n ih =>
      cases tokens with
      | nil => exact ⟨[], [], _, rfl, .nil, .inl .nil⟩
      | cons token tokens =>
          have shorter : tokens.length < n := by simp [← length]
          rcases ih _ shorter tokens rfl with ⟨part, rest, options, rfl, cut, stop⟩
          rcases cut.exists_cons with ⟨option, others, rfl⟩
          by_cases isClosing : token.kind = .plain '}'
          case pos => exact ⟨[], _, _, rfl, .nil, .inr ⟨_, _, rfl, isClosing⟩⟩
          case neg =>
            by_cases isOpening : token.kind = .plain '{'
            case pos =>
              rcases stop with unclosed | ⟨closing, after, rfl, closes⟩
              · exact ⟨[], _, _, rfl, .nil, .inl (.opening isOpening cut unclosed)⟩
              · -- The brace is closed, and what stands after it starts with matched tokens again.
                have afterShorter : after.length < n := by
                  rw [← length]
                  simp only [List.length_cons, List.length_append]
                  omega
                rcases ih _ afterShorter after rfl with
                  ⟨later, rest, laterOptions, rfl, laterCut, laterStop⟩
                rcases laterCut.exists_cons with ⟨laterOption, laterOthers, rfl⟩
                exact ⟨token :: part ++ closing :: later, rest, _, by simp,
                  .brace isOpening closes cut laterCut, laterStop⟩
            case neg =>
              by_cases isComma : token.kind = .plain ','
              case pos => exact ⟨token :: part, rest, _, rfl, .comma isComma cut, stop⟩
              case neg =>
                exact ⟨token :: part, rest, _, rfl, .leaf isOpening isClosing isComma cut, stop⟩

/-! ### Options -/

/-- An option has no comma outside of its braces. -/
theorem CutInto.of_mem {tokens : List Token} {options : List (List Token)}
    (cut : CutInto tokens options) : ∀ option ∈ options, CutInto option [option] := by
  induction cut with
  | nil => exact List.forall_mem_singleton.mpr .nil
  | comma _ _ ih => exact List.forall_mem_cons.mpr ⟨.nil, ih⟩
  | leaf notOpening notClosing notComma _ ih =>
      rcases List.forall_mem_cons.mp ih with ⟨first, others⟩
      exact List.forall_mem_cons.mpr ⟨.leaf notOpening notClosing notComma first, others⟩
  | brace isOpening isClosing within _ _ ih =>
      rcases List.forall_mem_cons.mp ih with ⟨first, others⟩
      exact List.forall_mem_cons.mpr ⟨.brace isOpening isClosing within first, others⟩

/-- Options with a comma between each two. -/
inductive Joins : List Token → List (List Token) → Prop where
  | last (option : List Token) : Joins option [option]
  | comma {comma : Token} {tokens : List Token} {options : List (List Token)}
      (option : List Token) (isComma : comma.kind = .plain ',') (later : Joins tokens options) :
      Joins (option ++ comma :: tokens) (option :: options)

theorem Joins.append_left {tokens option : List Token} {options : List (List Token)}
    (joins : Joins tokens (option :: options)) (front : List Token) :
    Joins (front ++ tokens) ((front ++ option) :: options) := by
  cases joins with
  | last => exact .last _
  | comma _ isComma later =>
      rw [← List.append_assoc]
      exact .comma _ isComma later

theorem CutInto.joins {tokens : List Token} {options : List (List Token)}
    (cut : CutInto tokens options) : Joins tokens options := by
  induction cut with
  | nil => exact .last []
  | comma isComma _ ih => exact .comma [] isComma ih
  | leaf _ _ _ _ ih => exact ih.append_left [_]
  | @brace opening closing inner _ _ _ _ _ _ _ _ _ ih =>
      simpa using ih.append_left (opening :: inner ++ [closing])

/-- A single option is all there is between the braces. -/
theorem CutInto.eq_of_singleton {tokens option : List Token} (cut : CutInto tokens [option]) :
    tokens = option := by
  cases cut.joins with
  | last => rfl
  | comma _ _ later => cases later

/-- The texts of options that are written one after the other, with their offsets. -/
def placed (offset : Nat) : List (List Token) → List (Nat × Text)
  | [] => []
  | option :: options =>
      (offset, textOf option) :: placed (offset + (textOf option).length + 1) options

/-- Every option stands where it is placed. -/
theorem Joins.forall₂_placed {tokens : List Token} {options : List (List Token)}
    (joins : Joins tokens options) (base : Nat) :
    List.Forall₂ (fun place option => ∃ before after, tokens = before ++ option ++ after ∧
      place.1 = base + (textOf before).length ∧ place.2 = textOf option)
      (placed base options) options := by
  induction joins generalizing base with
  | last option => exact .cons ⟨[], [], by simp, rfl, rfl⟩ .nil
  | @comma comma tokens options first isComma later ih =>
      refine .cons ⟨[], comma :: tokens, by simp, rfl, rfl⟩ ((ih _).imp ?_)
      rintro ⟨offset, chars⟩ option ⟨before, after, rfl, rfl, rfl⟩
      refine ⟨first ++ comma :: before, after, by simp, ?_, rfl⟩
      simp only [textOf_append, textOf_cons, text_of_plain isComma, List.length_append,
        List.length_singleton]
      omega

/-! ### The balance of braces -/

/-- How many more opening braces than closing braces there are. -/
def balance : List Token → Int
  | [] => 0
  | token :: tokens =>
      (if token.kind = .plain '{' then 1 else if token.kind = .plain '}' then -1 else 0) +
        balance tokens

theorem balance_opening {token : Token} (isOpening : token.kind = .plain '{')
    (tokens : List Token) : balance (token :: tokens) = 1 + balance tokens := by
  rw [balance, if_pos isOpening]

theorem balance_closing {token : Token} (isClosing : token.kind = .plain '}')
    (tokens : List Token) : balance (token :: tokens) = -1 + balance tokens := by
  simp [balance, isClosing]

@[simp]
theorem balance_append (tokens others : List Token) :
    balance (tokens ++ others) = balance tokens + balance others := by
  induction tokens with
  | nil => simp [balance]
  | cons token tokens ih => simp [balance, ih, Int.add_assoc]

theorem CutInto.balance_eq {tokens : List Token} {options : List (List Token)}
    (cut : CutInto tokens options) : balance tokens = 0 := by
  induction cut with
  | nil => rfl
  | comma isComma _ ih => simp [balance, isComma, ih]
  | leaf notOpening notClosing _ _ ih => simp [balance, notOpening, notClosing, ih]
  | brace isOpening isClosing _ _ ihWithin ih =>
      rw [List.cons_append, balance_opening isOpening, balance_append, balance_closing isClosing,
        ihWithin, ih]
      rfl

/-- Up to any point, no more braces are closed than were opened. -/
theorem CutInto.balance_prefix {tokens before after : List Token} {options : List (List Token)}
    (cut : CutInto tokens options) (split : tokens = before ++ after) : 0 ≤ balance before := by
  induction cut generalizing before after with
  | nil =>
      rw [(List.append_eq_nil_iff.mp split.symm).1]
      exact Int.le_refl 0
  | comma isComma _ ih =>
      rcases List.cons_eq_append_iff.mp split with ⟨rfl, -⟩ | ⟨later, rfl, laterSplit⟩
      · exact Int.le_refl 0
      · simpa [balance, isComma] using ih laterSplit
  | leaf notOpening notClosing _ _ ih =>
      rcases List.cons_eq_append_iff.mp split with ⟨rfl, -⟩ | ⟨later, rfl, laterSplit⟩
      · exact Int.le_refl 0
      · simpa [balance, notOpening, notClosing] using ih laterSplit
  | brace isOpening isClosing within _ ihWithin ih =>
      rw [List.cons_append] at split
      rcases List.cons_eq_append_iff.mp split with ⟨rfl, -⟩ | ⟨later, rfl, laterSplit⟩
      · exact Int.le_refl 0
      · rw [balance_opening isOpening]
        rcases List.append_eq_append_iff.mp laterSplit with
          ⟨beyond, rfl, closingSplit⟩ | ⟨missing, innerSplit, -⟩
        · rcases List.cons_eq_append_iff.mp closingSplit with ⟨rfl, -⟩ | ⟨last, rfl, lastSplit⟩
          · simp [within.balance_eq]
          · have lastBalance := ih lastSplit
            rw [balance_append, within.balance_eq, balance_closing isClosing]
            omega
        · have laterBalance := ihWithin innerSplit
          omega

theorem Unclosed.balance_nonneg {tokens : List Token} (unclosed : Unclosed tokens) :
    0 ≤ balance tokens := by
  induction unclosed with
  | nil => exact Int.le_refl 0
  | opening isOpening cut _ ih =>
      rw [List.cons_append, balance_opening isOpening, balance_append, cut.balance_eq]
      omega

/-! ## The scans -/

/-- The number of characters before the brace that closes a number of open braces and one more. -/
def lengthIn (depth : Nat) : List Token → Option Nat
  | [] => none
  | token :: rest =>
      if token.kind = .plain '{' then (lengthIn (depth + 1) rest).map (· + 1)
      else if token.kind = .plain '}' then
        if depth = 0 then some 0 else (lengthIn (depth - 1) rest).map (· + 1)
      else (lengthIn depth rest).map (· + token.text.length)

theorem lengthFrom_taken (depth taken : Nat) (text : Text) :
    Scanner.lengthFrom depth taken text =
      (Scanner.lengthFrom depth 0 (text.drop taken)).map (· + taken) := by
  induction text generalizing taken with
  | nil => simp [Scanner.lengthFrom]
  | cons c rest ih =>
      cases taken with
      | zero => simp
      | succ more =>
          rw [Scanner.lengthFrom, ih more, Option.map_map, List.drop_succ_cons]
          rfl

theorem lengthFrom_eq (depth offset : Nat) (text : Text) :
    Scanner.lengthFrom depth 0 text = lengthIn depth (ofText offset text) := by
  induction text using text_induction generalizing depth offset with
  | nil => rfl
  | cons c rest ih =>
      have opening := kind_first_iff (show '{' ∉ ['\\', '['] by decide) offset c rest
      have closing := kind_first_iff (show '}' ∉ ['\\', '['] by decide) offset c rest
      rw [ofText_cons, lengthIn, Scanner.lengthFrom, lengthFrom_taken depth (followers c rest)]
      simp only [opening, closing, length_text_first, ← ih _ (offset + 1 + followers c rest)]
      by_cases ordinary : c ∉ ['\\', '[']
      case pos =>
        rw [followers_of_ordinary ordinary]
        simp
      case neg =>
        have notBrace : c ≠ '{' ∧ c ≠ '}' := by
          constructor <;> rintro rfl <;> exact ordinary (by decide)
        simp [notBrace, Nat.add_comm]

theorem CutInto.lengthIn_append {part : List Token} {options : List (List Token)}
    (cut : CutInto part options) (depth : Nat) (rest : List Token) :
    lengthIn depth (part ++ rest) = (lengthIn depth rest).map (· + (textOf part).length) := by
  induction cut generalizing depth rest with
  | nil => simp
  | comma isComma _ ih =>
      simp [lengthIn, isComma, ih, Function.comp_def, Nat.add_comm, Nat.add_left_comm]
  | leaf notOpening notClosing _ _ ih =>
      simp [lengthIn, notOpening, notClosing, ih, Function.comp_def, Nat.add_comm,
        Nat.add_left_comm]
  | brace isOpening isClosing _ _ ihWithin ih =>
      simp [lengthIn, isOpening, isClosing, ihWithin, ih, Function.comp_def, text, Nat.add_comm,
        Nat.add_left_comm]

theorem Unclosed.lengthIn_eq {tokens : List Token} (unclosed : Unclosed tokens) (depth : Nat) :
    lengthIn depth tokens = none := by
  induction unclosed generalizing depth with
  | nil => rfl
  | opening isOpening cut _ ih => simp [lengthIn, isOpening, cut.lengthIn_append, ih]

/-- The options of tokens, found by counting the open braces. -/
def cutAt (depth : Nat) : List Token → List (List Token)
  | [] => [[]]
  | token :: rest =>
      if token.kind = .plain '{' then (cutAt (depth + 1) rest).modifyHead (token :: ·)
      else if token.kind = .plain '}' then (cutAt (depth - 1) rest).modifyHead (token :: ·)
      else if token.kind = .plain ',' ∧ depth = 0 then [] :: cutAt 0 rest
      else (cutAt depth rest).modifyHead (token :: ·)

theorem CutInto.cutAt_succ {part : List Token} {options : List (List Token)}
    (cut : CutInto part options) (depth : Nat) (rest : List Token) :
    cutAt (depth + 1) (part ++ rest) = (cutAt (depth + 1) rest).modifyHead (part ++ ·) := by
  induction cut generalizing depth rest with
  | nil =>
      rw [List.nil_append]
      cases cutAt (depth + 1) rest <;> rfl
  | comma isComma _ ih => simp [cutAt, isComma, ih, Function.comp_def]
  | leaf notOpening notClosing _ _ ih =>
      simp [cutAt, notOpening, notClosing, ih, Function.comp_def]
  | brace isOpening isClosing _ _ ihWithin ih =>
      simp [cutAt, isOpening, isClosing, ihWithin, ih, Function.comp_def]

theorem CutInto.cutAt_zero {part : List Token} {options : List (List Token)}
    (cut : CutInto part options) : cutAt 0 part = options := by
  induction cut with
  | nil => rfl
  | comma isComma _ ih => simp [cutAt, isComma, ih]
  | leaf notOpening notClosing notComma _ ih =>
      simp [cutAt, notOpening, notClosing, notComma, ih]
  | brace isOpening isClosing within _ _ ih =>
      simp [cutAt, isOpening, isClosing, within.cutAt_succ, ih]

theorem exists_cutAt (depth : Nat) (tokens : List Token) :
    ∃ option options, cutAt depth tokens = option :: options := by
  induction tokens generalizing depth with
  | nil => exact ⟨_, _, rfl⟩
  | cons token tokens ih =>
      have added (depth : Nat) : ∃ option options,
          (cutAt depth tokens).modifyHead (token :: ·) = option :: options := by
        rcases ih depth with ⟨option, options, same⟩
        exact ⟨token :: option, options, by rw [same, List.modifyHead_cons]⟩
      rw [cutAt]
      split_ifs
      · exact added _
      · exact added _
      · exact ⟨_, _, rfl⟩
      · exact added _

theorem optionsFrom_taken {depth taken offset : Nat} {text : Text} {option : List Token}
    {options : List (List Token)} (bounded : taken ≤ text.length)
    (rest : Scanner.optionsFrom depth 0 (offset + taken) (text.drop taken) =
      placed (offset + taken) (option :: options)) :
    Scanner.optionsFrom depth taken offset text =
      (offset, text.take taken ++ textOf option) ::
        placed (offset + taken + (textOf option).length + 1) options := by
  induction text generalizing taken offset with
  | nil =>
      obtain rfl : taken = 0 := by simpa using bounded
      simpa [placed] using rest
  | cons c text ih =>
      cases taken with
      | zero => simpa [placed] using rest
      | succ more =>
          have restBounded : more ≤ text.length := by simpa using bounded
          rw [List.drop_succ_cons, Nat.add_comm more 1, ← Nat.add_assoc] at rest
          rw [Scanner.optionsFrom, ih restBounded rest, Scanner.extend, List.take_succ_cons,
            Nat.add_comm more 1, ← Nat.add_assoc, List.cons_append]

theorem optionsFrom_eq (depth offset : Nat) (text : Text) :
    Scanner.optionsFrom depth 0 offset text = placed offset (cutAt depth (ofText offset text)) := by
  induction text using text_induction generalizing depth offset with
  | nil => rfl
  | cons c rest ih =>
      -- Only a comma outside of all braces starts an option; all else goes to the next option.
      have joined (depth : Nat) :
          Scanner.extend offset c
              (Scanner.optionsFrom depth (followers c rest) (offset + 1) rest) =
            placed offset ((cutAt depth (ofText (offset + 1 + followers c rest)
              (rest.drop (followers c rest)))).modifyHead (first offset c rest :: ·)) := by
        have later := ih depth (offset + 1 + followers c rest)
        rcases exists_cutAt depth (ofText (offset + 1 + followers c rest)
          (rest.drop (followers c rest))) with ⟨option, options, same⟩
        rw [same] at later ⊢
        rw [optionsFrom_taken (followers_le c rest) later, Scanner.extend, List.modifyHead_cons,
          placed, textOf_cons, text_first, List.length_append, List.length_cons,
          List.length_take_of_le (followers_le c rest)]
        simp only [List.cons_append, Nat.add_assoc, Nat.add_comm, Nat.add_left_comm]
      have opening := kind_first_iff (show '{' ∉ ['\\', '['] by decide) offset c rest
      have closing := kind_first_iff (show '}' ∉ ['\\', '['] by decide) offset c rest
      have comma := kind_first_iff (show ',' ∉ ['\\', '['] by decide) offset c rest
      rw [ofText_cons, cutAt, Scanner.optionsFrom]
      simp only [opening, closing, comma]
      by_cases ordinary : c ∉ ['\\', '[']
      case pos =>
        rw [followers_of_ordinary ordinary] at ih joined ⊢
        split_ifs
        · exact joined (depth + 1)
        · exact joined (depth - 1)
        · exact congrArg (List.cons (offset, [])) (ih 0 (offset + 1))
        · exact joined depth
      case neg =>
        have notBrace : c ≠ '{' ∧ c ≠ '}' ∧ c ≠ ',' := by
          refine ⟨?_, ?_, ?_⟩ <;> rintro rfl <;> exact ordinary (by decide)
        simpa [notBrace] using joined depth

end Token

/-! ## The trees -/

namespace Tree

namespace Frame

/-- The options of a group that is not closed yet. -/
def options (frame : Frame) : List (List Tree) :=
  (frame.current.reverse :: frame.finished).reverse

end Frame

namespace Nesting

/-- The trees read so far, up to the first brace that is still open. -/
def trees (nesting : Nesting) : List Tree :=
  match nesting.frames.getLast? with
  | none => nesting.outer.reverse
  | some frame => (.unclosed frame.opening :: nesting.outer).reverse

theorem step_opening {nesting : Nesting} {token : Token} (isOpening : token.kind = .plain '{') :
    nesting.step token =
      { nesting with frames := ⟨token.offset, [], []⟩ :: nesting.frames } := by
  simp [step, isOpening]

theorem step_closing {outer : List Tree} {frame : Frame} {frames : List Frame} {token : Token}
    (isClosing : token.kind = .plain '}') :
    step ⟨outer, frame :: frames⟩ token =
      add ⟨outer, frames⟩ (.group frame.opening frame.options) := by
  simp [step, isClosing, Frame.options]

theorem step_comma {outer : List Tree} {frame : Frame} {frames : List Frame} {token : Token}
    (isComma : token.kind = .plain ',') :
    step ⟨outer, frame :: frames⟩ token =
      ⟨outer, ⟨frame.opening, frame.current.reverse :: frame.finished, []⟩ :: frames⟩ := by
  simp [step, isComma]

theorem step_leaf {nesting : Nesting} {token : Token} (notOpening : token.kind ≠ .plain '{')
    (ordinary : nesting.frames = [] ∨ token.kind ≠ .plain '}' ∧ token.kind ≠ .plain ',') :
    nesting.step token = nesting.add (.leaf token) := by
  rw [step]
  split <;> simp_all

/-- The same state with further trees before it. -/
def above (nesting : Nesting) (below : List Tree) : Nesting :=
  ⟨nesting.outer ++ below, nesting.frames⟩

theorem add_above (nesting : Nesting) (below : List Tree) (tree : Tree) :
    (nesting.above below).add tree = (nesting.add tree).above below := by
  rcases nesting with ⟨outer, frames⟩
  cases frames <;> rfl

theorem step_above (nesting : Nesting) (below : List Tree) (token : Token) :
    (nesting.above below).step token = (nesting.step token).above below := by
  rcases nesting with ⟨outer, frames⟩
  by_cases isOpening : token.kind = .plain '{'
  · rw [step_opening isOpening, step_opening isOpening]
    rfl
  · cases frames with
    | nil =>
        rw [step_leaf isOpening (.inl rfl), step_leaf isOpening (.inl rfl), add_above]
    | cons frame frames =>
        by_cases isClosing : token.kind = .plain '}'
        · rw [above, step_closing isClosing, step_closing isClosing, ← add_above]
          rfl
        · by_cases isComma : token.kind = .plain ','
          · rw [above, step_comma isComma, step_comma isComma]
            rfl
          · rw [step_leaf isOpening (.inr ⟨isClosing, isComma⟩),
              step_leaf isOpening (.inr ⟨isClosing, isComma⟩), add_above]

theorem foldl_step_above (nesting : Nesting) (below : List Tree) (tokens : List Token) :
    tokens.foldl step (nesting.above below) = (tokens.foldl step nesting).above below := by
  induction tokens generalizing nesting with
  | nil => rfl
  | cons token tokens ih => rw [List.foldl_cons, step_above, ih, List.foldl_cons]

@[simp]
theorem trees_above (nesting : Nesting) (below : List Tree) :
    (nesting.above below).trees = below.reverse ++ nesting.trees := by
  unfold trees above
  split <;> simp_all

end Nesting

open Nesting

@[simp]
theorem ofTokens_nil : ofTokens [] = [] :=
  rfl

theorem ofTokens_leaf {token : Token} (notOpening : token.kind ≠ .plain '{')
    (tokens : List Token) : ofTokens (token :: tokens) = .leaf token :: ofTokens tokens := by
  have start : step ⟨[], []⟩ token = above ⟨[], []⟩ [.leaf token] :=
    step_leaf notOpening (.inl rfl)
  change ((token :: tokens).foldl step ⟨[], []⟩).trees = _
  rw [List.foldl_cons, start, foldl_step_above, trees_above]
  rfl

theorem ofTokens_of_foldl_step {opening closing : Token} {inner : List Token} {last : Frame}
    (isOpening : opening.kind = .plain '{') (isClosing : closing.kind = .plain '}')
    (read : inner.foldl step ⟨[], [⟨opening.offset, [], []⟩]⟩ = ⟨[], [last]⟩)
    (sameOpening : last.opening = opening.offset) (tokens : List Token) :
    ofTokens (opening :: inner ++ closing :: tokens) =
      .group opening.offset last.options :: ofTokens tokens := by
  change ((opening :: inner ++ closing :: tokens).foldl step ⟨[], []⟩).trees = _
  have closed : step ⟨[], [last]⟩ closing =
      above ⟨[], []⟩ [.group opening.offset last.options] := by
    rw [step_closing isClosing, sameOpening]
    rfl
  rw [List.cons_append, List.foldl_cons, step_opening isOpening, List.foldl_append, read,
    List.foldl_cons, closed, foldl_step_above, trees_above]
  rfl

/-- Tokens whose braces are matched go to the innermost group that is open. -/
theorem exists_foldl_step {tokens : List Token} {options : List (List Token)}
    (cut : Token.CutInto tokens options) (outer : List Tree) (frame : Frame) (frames : List Frame) :
    ∃ last : Frame, tokens.foldl step ⟨outer, frame :: frames⟩ = ⟨outer, last :: frames⟩ ∧
      last.opening = frame.opening ∧
      last.options = frame.finished.reverse ++
        (options.map ofTokens).modifyHead (frame.current.reverse ++ ·) := by
  induction cut generalizing outer frame frames with
  | nil => exact ⟨frame, rfl, rfl, by simp [Frame.options]⟩
  | @comma comma tokens options isComma later ih =>
      rw [List.foldl_cons, step_comma isComma]
      rcases ih outer ⟨frame.opening, frame.current.reverse :: frame.finished, []⟩ frames with
        ⟨last, read, sameOpening, sameOptions⟩
      refine ⟨last, read, sameOpening, ?_⟩
      rw [sameOptions]
      rcases later.exists_cons with ⟨option, others, rfl⟩
      simp
  | @leaf token tokens option options notOpening notClosing notComma later ih =>
      rw [List.foldl_cons, step_leaf notOpening (.inr ⟨notClosing, notComma⟩)]
      rcases ih outer { frame with current := .leaf token :: frame.current } frames with
        ⟨last, read, sameOpening, sameOptions⟩
      refine ⟨last, read, sameOpening, ?_⟩
      rw [sameOptions]
      simp [ofTokens_leaf notOpening]
  | @brace opening closing inner tokens option innerOptions options isOpening isClosing within later
      ihWithin ih =>
      -- The content is read twice: alone, for the trees of the option, and where it stands.
      rcases ihWithin [] ⟨opening.offset, [], []⟩ [] with
        ⟨alone, readAlone, aloneOpening, aloneOptions⟩
      have group := ofTokens_of_foldl_step isOpening isClosing readAlone aloneOpening option
      rcases ihWithin outer ⟨opening.offset, [], []⟩ (frame :: frames) with
        ⟨inside, readInside, insideOpening, insideOptions⟩
      rcases ih outer
          { frame with current := .group opening.offset inside.options :: frame.current }
          frames with
        ⟨last, read, sameOpening, sameOptions⟩
      refine ⟨last, ?_, sameOpening, ?_⟩
      · rw [List.cons_append, List.foldl_cons, step_opening isOpening, List.foldl_append,
          readInside, List.foldl_cons, step_closing isClosing, insideOpening]
        exact read
      · rw [sameOptions, List.map_cons, List.map_cons, group, aloneOptions, insideOptions]
        simp

theorem ofTokens_group {opening closing : Token} {inner : List Token}
    {options : List (List Token)} (isOpening : opening.kind = .plain '{')
    (isClosing : closing.kind = .plain '}') (cut : Token.CutInto inner options)
    (tokens : List Token) :
    ofTokens (opening :: inner ++ closing :: tokens) =
      .group opening.offset (options.map ofTokens) :: ofTokens tokens := by
  rcases exists_foldl_step cut [] ⟨opening.offset, [], []⟩ [] with
    ⟨last, read, sameOpening, sameOptions⟩
  rw [ofTokens_of_foldl_step isOpening isClosing read sameOpening, sameOptions]
  rcases cut.exists_cons with ⟨option, others, rfl⟩
  simp

/-- Where no brace is closed any more, the first of the open groups stays open. -/
theorem exists_foldl_step_of_unclosed {tokens : List Token} (unclosed : Token.Unclosed tokens)
    (outer : List Tree) (frame : Frame) (frames : List Frame) :
    ∃ later, tokens.foldl step ⟨outer, frame :: frames⟩ = ⟨outer, later⟩ ∧
      later.getLast?.map Frame.opening = (frame :: frames).getLast?.map Frame.opening := by
  induction unclosed generalizing frame frames with
  | nil => exact ⟨_, rfl, rfl⟩
  | @opening opening part rest options isOpening cut _ ih =>
      rcases exists_foldl_step cut outer ⟨opening.offset, [], []⟩ (frame :: frames) with
        ⟨last, read, -, -⟩
      rcases ih last (frame :: frames) with ⟨later, readLater, sameLast⟩
      refine ⟨later, ?_, by rw [sameLast, List.getLast?_cons_cons]⟩
      rw [List.cons_append, List.foldl_cons, step_opening isOpening, List.foldl_append, read,
        readLater]

theorem ofTokens_unclosed {opening : Token} {part rest : List Token} {options : List (List Token)}
    (isOpening : opening.kind = .plain '{') (cut : Token.CutInto part options)
    (unclosed : Token.Unclosed rest) :
    ofTokens (opening :: part ++ rest) = [.unclosed opening.offset] := by
  rcases exists_foldl_step cut [] ⟨opening.offset, [], []⟩ [] with ⟨last, read, sameOpening, -⟩
  rcases exists_foldl_step_of_unclosed unclosed [] last [] with ⟨frames, readLater, sameLast⟩
  change ((opening :: part ++ rest).foldl step ⟨[], []⟩).trees = _
  rw [List.cons_append, List.foldl_cons, step_opening isOpening, List.foldl_append, read, readLater,
    trees]
  rw [List.getLast?_singleton, Option.map_some, sameOpening] at sameLast
  rcases Option.map_eq_some_iff.mp sameLast with ⟨frame, isLast, frameOpening⟩
  simp [isLast, frameOpening]

end Tree

end Glob

end PropertyCascade
