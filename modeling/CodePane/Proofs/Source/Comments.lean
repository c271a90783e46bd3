import CodePane.Proofs.Source.Classes
import CodePane.Proofs.Source.Gaps

/-!
# Comments and the commands in them

The scan of a comment goes on behind each command it finds and keeps the start of the comment's own
text until then. From outside, the commands are the marks with a listed word behind them, each
judged alone, and the comment's own tokens fill what is left.

1. `IsCommand`, `FindsCommand`, `isCommand_iff`: a command by its bytes, and as the scan finds it.
2. `commentTokens_docWord`, `KeptApart`, `commentTokens_apart`: the tokens that commands have, and
   the others.
3. `TiledComment`, `comment_tiled`: a comment as a whole.
4. `tokensBefore`, `comments_tiled`: the tokens of a text that begins with a comment.
-/

namespace CodePane.Source

open Text

variable {body content part rest tail text : Text} {a b : UInt8} {j k n pos : Nat}

/-! ## Commands -/

/-- The span `[k, j)` of a text is a command inside `[first, last)`: a mark, and behind it a listed
word that goes on up to a byte of no name, or up to `last`. -/
structure IsCommand (text : Text) (first last k j : Nat) : Prop where
  inside : first ≤ k ∧ k < j ∧ j ≤ last
  marked : ∃ b, text[k]? = some b ∧ isCommandMark b = true
  named : ∀ i, k < i → i < j → ∃ b, text[i]? = some b ∧ Byte.continuesName b = true
  maximal : j < last → ∀ b, text[j]? = some b → Byte.continuesName b = false
  listed : Vocabulary.isDocWord (text.between (k + 1) j) = true

/-- The scan finds the command `[k, j)` of a text when it stands at `k`. -/
def FindsCommand (part : Text) (k j : Nat) : Prop :=
  ∃ b n, part[k]? = some b ∧ commandLength? b (part.drop (k + 1)) = some n ∧ j = k + 1 + n

theorem continuesName_of_isCommandMark (h : isCommandMark b = true) :
    Byte.continuesName b = false := by
  have hends := endsName_of_isCommandMark h
  unfold Byte.endsName at hends
  exact (Bool.not_eq_true' _).mp hends

theorem countWhile_part_iff {p : UInt8 → Bool} {start last : Nat} (hstart : start ≤ last)
    (hlast : last ≤ text.length) : countWhile p ((text.take last).drop start) = n ↔
      start + n ≤ last ∧
      (∀ i, start ≤ i → i < start + n → ∃ b, text[i]? = some b ∧ p b = true) ∧
      (start + n < last → ∀ b, text[start + n]? = some b → p b = false) := by
  have hget {i : Nat} (hi : start + i < last) :
      ((text.take last).drop start)[i]? = text[start + i]? := by
    rw [List.getElem?_drop, List.getElem?_take_of_lt hi]
  have hlength : ((text.take last).drop start).length = last - start := by
    rw [List.length_drop, List.length_take, Nat.min_eq_left hlast]
  rw [countWhile_eq_iff, hlength]
  constructor
  · rintro ⟨hle, hrun, hstop⟩
    refine ⟨by omega, fun i hi hlt => ?_, fun hlt b hb => ?_⟩
    · obtain ⟨m, rfl⟩ := Nat.exists_eq_add_of_le hi
      rw [← hget (by omega)]
      exact hrun m (by omega)
    · exact hstop b ((hget hlt).trans hb)
  · rintro ⟨hle, hrun, hstop⟩
    refine ⟨by omega, fun i hi => ?_, fun b hb => ?_⟩
    · rw [hget (by omega)]
      exact hrun _ (Nat.le_add_right _ _) (by omega)
    · obtain ⟨hlt, -⟩ := List.getElem?_eq_some_iff.mp hb
      rw [hlength] at hlt
      rw [hget (by omega)] at hb
      exact hstop (by omega) b hb

theorem isCommand_iff {first last : Nat} (hlast : last ≤ text.length) :
    IsCommand text first last k j ↔ first ≤ k ∧ FindsCommand (text.take last) k j := by
  have hget (hk : k < last) : (text.take last)[k]? = text[k]? := List.getElem?_take_of_lt hk
  have hword {n : Nat} (hn : k + 1 + n ≤ last) :
      text.between (k + 1) (k + 1 + n) = ((text.take last).drop (k + 1)).take n := by
    rw [between_add, List.drop_take, List.take_take, Nat.min_eq_left (by omega)]
  constructor
  · rintro ⟨⟨hfirst, hkj, hjlast⟩, ⟨b, hb, hmark⟩, hnamed, hmaximal, hlisted⟩
    obtain ⟨n, rfl⟩ := Nat.exists_eq_add_of_le (Nat.succ_le_of_lt hkj)
    have hrun := (countWhile_part_iff (Nat.le_of_add_right_le hjlast) hlast).mpr
      ⟨hjlast, hnamed, hmaximal⟩
    rw [hword hjlast] at hlisted
    exact ⟨hfirst, b, n, (hget (by omega)).trans hb,
      commandLength?_eq_some_iff.mpr ⟨hmark, hrun, hlisted⟩, rfl⟩
  · rintro ⟨hfirst, b, n, hb, hcommand, rfl⟩
    obtain ⟨hmark, hrun, hlisted⟩ := commandLength?_eq_some_iff.mp hcommand
    obtain ⟨hk, -⟩ := List.getElem?_eq_some_iff.mp hb
    rw [List.length_take, Nat.min_eq_left hlast] at hk
    obtain ⟨hjlast, hnamed, hmaximal⟩ := (countWhile_part_iff hk hlast).mp hrun
    refine ⟨⟨hfirst, by omega, hjlast⟩, ⟨b, (hget hk).symm.trans hb, hmark⟩, hnamed, hmaximal, ?_⟩
    rw [hword hjlast]
    exact hlisted

/-! ## The tokens of a comment -/

/-- Behind a command that the scan finds, it finds what begins behind the command's word, for no
name holds a mark. -/
theorem findsCommand_from_some (hcontent : part.drop pos = b :: rest)
    (hn : commandLength? b rest = some n) : pos ≤ k ∧ FindsCommand part k j ↔
      (k = pos ∧ j = pos + 1 + n) ∨ (pos + 1 + n ≤ k ∧ FindsCommand part k j) := by
  have hget (i : Nat) : part[pos + i]? = (b :: rest)[i]? := by
    rw [← hcontent, List.getElem?_drop]
  have hrest : part.drop (pos + 1) = rest := drop_behind hcontent Nat.one_pos
  constructor
  · rintro ⟨hle, c, m, hc, hm, hj⟩
    obtain ⟨i, rfl⟩ := Nat.exists_eq_add_of_le hle
    have hhead := hget i
    rw [hc] at hhead
    cases i with
    | zero =>
      obtain rfl := Option.some.inj hhead
      rw [Nat.add_zero, hrest, hn] at hm
      obtain rfl := Option.some.inj hm
      exact .inl ⟨rfl, hj⟩
    | succ i =>
      have hi : n ≤ i := by
        apply Nat.le_of_not_lt
        intro hlt
        rw [← (commandLength?_eq_some_iff.mp hn).2.1] at hlt
        obtain ⟨d, hd, hname⟩ := countWhile_of_lt hlt
        rw [List.getElem?_cons_succ, hd] at hhead
        obtain rfl := Option.some.inj hhead
        rw [continuesName_of_isCommandMark (commandLength?_eq_some_iff.mp hm).1] at hname
        cases hname
      exact .inr ⟨by omega, c, m, hc, hm, hj⟩
  · rintro (⟨rfl, rfl⟩ | ⟨hle, hfinds⟩)
    · exact ⟨Nat.le_refl _, b, n, hget 0, by rw [hrest]; exact hn, rfl⟩
    · exact ⟨by omega, hfinds⟩

theorem findsCommand_from_none (hcontent : part.drop pos = b :: rest)
    (hn : commandLength? b rest = none) :
    pos ≤ k ∧ FindsCommand part k j ↔ pos + 1 ≤ k ∧ FindsCommand part k j := by
  refine and_congr_left ?_
  rintro ⟨c, m, hc, hm, -⟩
  refine ⟨fun hle => ?_, Nat.le_of_succ_le⟩
  apply Nat.lt_of_le_of_ne hle
  rintro rfl
  obtain rfl := Option.some.inj ((getElem?_of_drop_cons hcontent).symm.trans hc)
  rw [drop_behind hcontent Nat.one_pos] at hm
  exact absurd (hn.symm.trans hm) (Option.some_ne_none m).symm

/-- The command tokens of a comment are the spans that the scan finds, each judged alone. The
induction is on the scan. -/
theorem commentTokens_docWord {closing segment : Nat} (hcontent : part.drop pos = content) :
    (∃ t ∈ commentTokens closing segment pos content,
        t.tokenClass = .docWord ∧ t.start = k ∧ t.stop = j) ↔
      pos ≤ k ∧ FindsCommand part k j := by
  fun_induction commentTokens closing segment pos content with
  | case1 segment pos =>
    refine iff_of_false ?_ ?_
    · rintro ⟨t, ht, hclass, -⟩
      rw [commentText_class t ht] at hclass
      cases hclass
    · rintro ⟨hle, b, n, hb, -⟩
      obtain ⟨hlt, -⟩ := List.getElem?_eq_some_iff.mp hb
      exact absurd (List.drop_eq_nil_iff.mp hcontent) (by omega)
  | case2 segment pos b rest n hn stop ih =>
    have hstop : part.drop stop = rest.drop n := by
      rw [← List.drop_drop, drop_behind hcontent Nat.one_pos]
      rfl
    have hend : pos + (stop - pos) = stop := by omega
    rw [findsCommand_from_some hcontent hn, ← ih hstop]
    constructor
    · rintro ⟨t, ht, hclass, hspan⟩
      rcases List.mem_append.mp ht with ht | ht
      · rw [commentText_class t ht] at hclass
        cases hclass
      rcases List.mem_cons.mp ht with rfl | ht
      · exact .inl ⟨hspan.1.symm, hspan.2.symm.trans hend⟩
      · exact .inr ⟨t, ht, hclass, hspan⟩
    · rintro (⟨rfl, rfl⟩ | ⟨t, ht, hspan⟩)
      · exact ⟨_, List.mem_append_right _ List.mem_cons_self, rfl, rfl, hend⟩
      · exact ⟨t, List.mem_append_right _ (List.mem_cons_of_mem _ ht), hspan⟩
  | case3 segment pos b rest hn ih =>
    rw [findsCommand_from_none hcontent hn]
    exact ih (drop_behind hcontent Nat.one_pos)

/-- If both are of a comment's own text, the first token ends before the second one begins. -/
def KeptApart (t u : Token) : Prop :=
  t.tokenClass = .comment → u.tokenClass = .comment → t.stop < u.start

theorem commentText_apart (start stop : Nat) : (commentText start stop).Pairwise KeptApart := by
  unfold commentText
  split
  · exact List.pairwise_singleton _ _
  · exact .nil

/-- Between two tokens of the comment's own text there is a command. -/
theorem commentTokens_apart {closing segment : Nat} (h : segment ≤ pos) :
    (commentTokens closing segment pos content).Pairwise KeptApart := by
  fun_induction commentTokens closing segment pos content with
  | case1 => exact commentText_apart _ _
  | case2 segment pos b rest n hn stop ih =>
    have hmore : (Token.ofSpan pos stop .docWord .boldOnly ::
        commentTokens closing stop stop (rest.drop n)).Pairwise KeptApart :=
      List.pairwise_cons.mpr ⟨fun u _ hclass => TokenClass.noConfusion hclass, ih (Nat.le_refl _)⟩
    refine List.pairwise_append.mpr ⟨commentText_apart segment pos, hmore, ?_⟩
    intro t ht u hu _ hclass
    have hbefore := ((commentText_tidy segment pos).within t ht).2
    rcases List.mem_cons.mp hu with rfl | hu
    · cases hclass
    · have hbehind := (commentTokens_tidy closing stop stop _ (Nat.le_refl _)).within u hu
      omega
  | case3 segment pos b rest hn ih => exact ih (by omega)

/-! ## Whole comments -/

/-- The tokens of a comment `[0, stop)` at the head of a text, whose content is `[2, last)`: they
tile it, the command tokens are its commands, and of the others none follows another at once. -/
structure TiledComment (text : Text) (last stop : Nat) (tokens : List Token) : Prop where
  tidy : Tidy 0 stop tokens
  covers : ∀ i < stop, ∃ t ∈ tokens, t.Covers i
  commands : ∀ k j, (∃ t ∈ tokens, t.tokenClass = .docWord ∧ t.start = k ∧ t.stop = j) ↔
    IsCommand text 2 last k j
  others : ∀ t ∈ tokens, t.tokenClass = .docWord ∨ t.tokenClass = .comment
  apart : tokens.Pairwise KeptApart

theorem comment_tiled {closing last : Nat} (hcontent : content ++ tail = body)
    (hlast : last = 2 + content.length) :
    TiledComment (a :: b :: body) last (last + closing) (comment content closing).tokens := by
  subst hlast
  have hpart : (a :: b :: body).take (2 + content.length) = a :: b :: content := by
    rw [Nat.add_comm, List.take_succ_cons, List.take_succ_cons, ← hcontent, List.take_left]
  have hwhole : 2 + content.length ≤ (a :: b :: body).length := by
    rw [← hcontent, List.length_cons, List.length_cons, List.length_append]
    omega
  constructor
  · exact commentTokens_tidy closing 0 2 content (Nat.zero_le 2)
  · exact fun i hi => (comment_solid content closing).covers i hi
  · intro k j
    rw [isCommand_iff hwhole, hpart]
    exact commentTokens_docWord rfl
  · exact commentTokens_class
  · exact commentTokens_apart (Nat.zero_le 2)

/-! ## Texts that begin with a comment -/

/-- The tokens of a text that start before offset `stop`. -/
def tokensBefore (stop : Nat) (text : Text) : List Token :=
  (tokenize text).filter (·.start < stop)

theorem tokensBefore_lexeme (b : UInt8) (rest : Text) :
    tokensBefore (lexeme true b rest).length (b :: rest) = (lexeme true b rest).tokens := by
  have hlexeme := (lexeme_fits true b rest).tidy
  have hbehind := scan_tidy (freshLineAfter true b) (lexeme true b rest).length
    (rest.drop ((lexeme true b rest).length - 1))
  have hmiddle := (Tidy.nil 0 0).filter_middle hlexeme hbehind
  have hhere : (lexeme true b rest).tokensAt 0 = (lexeme true b rest).tokens :=
    Token.map_shift_zero _
  rw [tokensBefore, tokenize, scan, hhere, Nat.zero_add]
  simpa only [List.nil_append, Nat.zero_le, decide_true, Bool.true_and] using hmiddle

/-- A text whose first lexeme is a comment. -/
theorem tokensBefore_tiled {last : Nat} (closing : Nat)
    (hlexeme : lexeme true a (b :: body) = comment content closing)
    (hcontent : content ++ tail = body) (hlast : last = 2 + content.length) :
    TiledComment (a :: b :: body) last (last + closing)
      (tokensBefore (last + closing) (a :: b :: body)) := by
  have htokens := tokensBefore_lexeme a (b :: body)
  rw [hlexeme] at htokens
  have hlength : (comment content closing).length = last + closing := by rw [hlast]; rfl
  rw [hlength] at htokens
  rw [htokens]
  exact comment_tiled hcontent hlast

/-- **Comments.** A comment up to the end of its line, one up to its close and one that never closes
are tiled by their tokens: the commands in the content, and the comment's own text between them. -/
theorem comments_tiled (body : Text) :
    TiledComment (ascii "//" ++ body) (2 + lineLength body) (2 + lineLength body)
      (tokensBefore (2 + lineLength body) (ascii "//" ++ body)) ∧
    (∀ k, IsLeast {k | ascii "*/" <+: body.drop k} k →
      TiledComment (ascii "/*" ++ body) (2 + k) (2 + k + 2)
        (tokensBefore (2 + k + 2) (ascii "/*" ++ body))) ∧
    ((∀ k, ¬ ascii "*/" <+: body.drop k) →
      TiledComment (ascii "/*" ++ body) (2 + body.length) (2 + body.length)
        (tokensBefore (2 + body.length) (ascii "/*" ++ body))) := by
  have hline : lexeme true '/'.toUInt8 ('/'.toUInt8 :: body) = commentToLineEnd body := rfl
  have hblock : lexeme true '/'.toUInt8 ('*'.toUInt8 :: body) = commentToClose body := rfl
  refine ⟨?_, fun k hclose => ?_, fun hopen => ?_⟩
  · exact tokensBefore_tiled 0 hline List.takeWhile_append_dropWhile rfl
  · cases hfound : offsetOf (ascii "*/") body with
    | none => exact absurd hclose.1 (not_prefix_of_offsetOf_eq_none hfound k)
    | some i =>
      have hfirst := isLeast_of_offsetOf hfound
      obtain rfl : k = i := Nat.le_antisymm (hclose.2 hfirst.1) (hfirst.2 hclose.1)
      have hlength : (body.take k).length = k := by
        have := offsetOf_add_length_le hfound
        rw [List.length_take, Nat.min_eq_left (by omega)]
      rw [commentToClose, hfound] at hblock
      exact tokensBefore_tiled 2 hblock (List.take_append_drop k body) (by rw [hlength])
  · cases hfound : offsetOf (ascii "*/") body with
    | none =>
      rw [commentToClose, hfound] at hblock
      exact tokensBefore_tiled 0 hblock (List.append_nil body) rfl
    | some i => exact absurd (prefix_of_offsetOf hfound) (hopen i)

/-- A longer word than a command, two commands side by side and one that the close cuts. -/
theorem comments_tiled_cutOff :
    let body := ascii "@briefly \\brief@file*/"
    IsLeast {k | ascii "*/" <+: body.drop k} 20 ∧
      TiledComment (ascii "/*" ++ body) 22 24
        [⟨0, 11, .comment, .italicOnly⟩, ⟨11, 6, .docWord, .boldOnly⟩,
          ⟨17, 5, .docWord, .boldOnly⟩, ⟨22, 2, .comment, .italicOnly⟩] ∧
      (∀ k, ¬ ascii "*/" <+: (ascii "@file").drop k) ∧
      TiledComment (ascii "/*@file") 7 7
        [⟨0, 2, .comment, .italicOnly⟩, ⟨2, 5, .docWord, .boldOnly⟩] := by
  intro body
  have hclose : IsLeast {k | ascii "*/" <+: body.drop k} 20 :=
    isLeast_of_offsetOf (by decide +kernel)
  have hopen : ∀ k, ¬ ascii "*/" <+: (ascii "@file").drop k :=
    not_prefix_of_offsetOf_eq_none (by decide +kernel)
  have hclosed : tokensBefore 24 (ascii "/*" ++ body) =
      [⟨0, 11, .comment, .italicOnly⟩, ⟨11, 6, .docWord, .boldOnly⟩,
        ⟨17, 5, .docWord, .boldOnly⟩, ⟨22, 2, .comment, .italicOnly⟩] := by decide +kernel
  have hunclosed : tokensBefore 7 (ascii "/*@file") =
      [⟨0, 2, .comment, .italicOnly⟩, ⟨2, 5, .docWord, .boldOnly⟩] := by decide +kernel
  refine ⟨hclose, ?_, hopen, ?_⟩
  · rw [← hclosed]
    exact (comments_tiled body).2.1 20 hclose
  · rw [← hunclosed]
    exact (comments_tiled (ascii "@file")).2.2 hopen

end CodePane.Source
