import Dpll.Dimacs
import Dpll.Proofs.ClauseSource
import Dpll.Proofs.DimacsLines

namespace Dpll

namespace Dimacs

variable {d d' : Dimacs} {n : Nat} {b : UInt8} {line bytes : Bytes}
  {ls body comments : List Bytes} {c : Clause} {cs : List Clause} {h : Header}

theorem splitLine_cons_newline (bytes : Bytes) :
    splitLine (newline :: bytes) = ([newline], bytes) := by
  simp [splitLine]

theorem splitLine_cons (hb : b ≠ newline) (bytes : Bytes) :
    splitLine (b :: bytes) = (b :: (splitLine bytes).1, (splitLine bytes).2) := by
  simp [splitLine, hb]

theorem fst_splitLine_ne_nil (h : bytes ≠ []) : (splitLine bytes).1 ≠ [] := by
  obtain ⟨b, bytes, rfl⟩ := List.exists_cons_of_ne_nil h
  by_cases hb : b = newline
  · rw [hb, splitLine_cons_newline]
    exact List.cons_ne_nil _ _
  · rw [splitLine_cons hb]
    exact List.cons_ne_nil _ _

theorem lines_eq_splitLine (h : bytes ≠ []) :
    lines bytes = (splitLine bytes).1 :: lines (splitLine bytes).2 := by
  induction bytes with
  | nil => exact absurd rfl h
  | cons b bytes ih =>
    rw [lines]
    split
    next hb => rw [hb, splitLine_cons_newline]
    next hb =>
      rw [splitLine_cons hb]
      by_cases hn : bytes = []
      · subst hn
        rfl
      · rw [ih hn]

theorem lines_eq_nil (h : lines bytes = []) : bytes = [] := by
  by_contra hne
  rw [lines_eq_splitLine hne] at h
  cases h

/-- The reader has read `n` lines, and comes to these next. -/
structure Before (d : Dimacs) (n : Nat) (ls : List Bytes) : Prop where
  sound : d.broken = false
  unfinished : d.finished = false
  line : d.line = n
  rest : lines d.rest = ls

theorem before_ofBytes (bytes : Bytes) : (ofBytes bytes).Before 0 (lines bytes) :=
  ⟨rfl, rfl, rfl, rfl⟩

theorem Before.nextLine_nil (h : d.Before n []) : d.nextLine = (.ok none, d) := by
  unfold nextLine
  rw [lines_eq_nil h.rest, h.sound]
  rfl

theorem Before.nextLine_cons (h : d.Before n (line :: ls)) :
    ∃ d', d.nextLine = (.ok (some line), d') ∧ d'.Before (n + 1) ls := by
  have hne : d.rest ≠ [] := by
    intro hn
    have hr := h.rest
    rw [hn] at hr
    cases hr
  have hr := h.rest
  rw [lines_eq_splitLine hne] at hr
  cases hr
  refine ⟨{ d with rest := (splitLine d.rest).2, line := d.line + 1 }, ?_, h.sound, h.unfinished,
    congrArg (· + 1) h.line, rfl⟩
  unfold nextLine
  dsimp only
  rw [if_neg (by simp [h.sound]), if_neg (mt List.isEmpty_iff.1 (fst_splitLine_ne_nil hne))]

theorem readHeader_eq (d : Dimacs) :
    d.readHeader =
      match d.nextLine with
      | (.error fault, d') => (.error fault, d')
      | (.ok none, d') => (d'.located (.error .missingProblem), d')
      | (.ok (some line), d') =>
        if Comment line then d'.readHeader
        else if line.head? = some (byte 'p') then (d'.located (specification line), d')
        else (d'.located (.error .unexpectedPreamble), d') := by
  rw [readHeader]
  split
  next h => rw [h]
  next h => rw [h]
  next h =>
    rw [h]
    rfl

theorem readHeader_of_comment (h : d.nextLine = (.ok (some line), d')) (hc : Comment line) :
    d.readHeader = d'.readHeader := by
  rw [readHeader_eq, h]
  exact if_pos hc

theorem readHeader_of_not_comment (h : d.nextLine = (.ok (some line), d')) (hc : ¬ Comment line) :
    d.readHeader =
      if line.head? = some (byte 'p') then (d'.located (specification line), d')
      else (d'.located (.error .unexpectedPreamble), d') := by
  rw [readHeader_eq, h]
  exact if_neg hc

theorem readClause_eq (hf : d.finished = false) :
    d.readClause =
      match d.nextLine with
      | (.error fault, d') => (.error fault, d')
      | (.ok none, d') => (.ok none, { d' with finished := true })
      | (.ok (some line), d') =>
        if Comment line then d'.readClause
        else if Cutoff line then (.ok none, { d' with finished := true })
        else (d'.located ((clause line).map some), d') := by
  rw [readClause, hf, if_neg Bool.noConfusion]
  split
  next h => rw [h]
  next h => rw [h]
  next h =>
    rw [h]
    rfl

theorem readClause_of_none (hf : d.finished = false) (h : d.nextLine = (.ok none, d')) :
    d.readClause = (.ok none, { d' with finished := true }) := by
  rw [readClause_eq hf, h]

theorem readClause_of_comment (hf : d.finished = false) (h : d.nextLine = (.ok (some line), d'))
    (hc : Comment line) : d.readClause = d'.readClause := by
  rw [readClause_eq hf, h]
  exact if_pos hc

theorem readClause_of_cutoff (hf : d.finished = false) (h : d.nextLine = (.ok (some line), d'))
    (hp : Cutoff line) : d.readClause = (.ok none, { d' with finished := true }) := by
  have hc : ¬ Comment line := by
    rw [Comment, hp]
    decide
  rw [readClause_eq hf, h]
  exact (if_neg hc).trans (if_pos hp)

theorem readClause_of_neither (hf : d.finished = false) (h : d.nextLine = (.ok (some line), d'))
    (hc : ¬ Comment line) (hp : ¬ Cutoff line) :
    d.readClause = (d'.located ((clause line).map some), d') := by
  rw [readClause_eq hf, h]
  exact (if_neg hc).trans (if_neg hp)

theorem HeaderLine.head? (hl : HeaderLine h line) : line.head? = some (byte 'p') := by
  obtain ⟨-, -, -, -, -⟩ := hl
  rfl

theorem HeaderLine.not_comment (hl : HeaderLine h line) : ¬ Comment line := by
  rw [Comment, hl.head?]
  decide

theorem Numeral.head? {digits rest : Bytes} (h : Numeral n digits) (negative : Bool) :
    ∃ b, (minus negative ++ (digits ++ rest)).head? = some b ∧ (b = byte '-' ∨ isDigit b) := by
  cases negative with
  | true => exact ⟨byte '-', rfl, .inl rfl⟩
  | false =>
    obtain ⟨b, digits, rfl⟩ := List.exists_cons_of_ne_nil h.ne_nil
    exact ⟨b, rfl, .inr (h.digits b (.head _))⟩

theorem ClauseLine.head? (h : ClauseLine c line) :
    ∃ b, line.head? = some b ∧ (b = byte '-' ∨ isDigit b) := by
  cases h with
  | zero negative hz h he => exact (numeral_zero_iff.2 ⟨hz, h⟩).head? negative
  | literal h hl hd hc => exact hd.head? _

theorem ClauseLine.not_comment (h : ClauseLine c line) : ¬ Comment line := by
  obtain ⟨b, hb, hd⟩ := h.head?
  rw [Comment, hb, Option.some_inj]
  rintro rfl
  revert hd
  decide

theorem ClauseLine.not_cutoff (h : ClauseLine c line) : ¬ Cutoff line := by
  obtain ⟨b, hb, hd⟩ := h.head?
  rw [Cutoff, hb, Option.some_inj]
  rintro rfl
  revert hd
  decide

section Header

theorem Before.readHeader_comments (h : d.Before n (comments ++ ls))
    (hc : ∀ line ∈ comments, Comment line) :
    ∃ d' : Dimacs, d'.Before (n + comments.length) ls ∧ d.readHeader = d'.readHeader := by
  induction comments generalizing d n with
  | nil => exact ⟨d, h, rfl⟩
  | cons line comments ih =>
    obtain ⟨hline, hc⟩ := List.forall_mem_cons.1 hc
    obtain ⟨d₁, hd, h₁⟩ := Before.nextLine_cons h
    obtain ⟨d', h', hr⟩ := ih h₁ hc
    rw [Nat.add_right_comm] at h'
    exact ⟨d', h', (readHeader_of_comment hd hline).trans hr⟩

theorem Before.readHeader_nil (h : d.Before n []) :
    ∃ d', d.readHeader = (.error ⟨.missingProblem, n⟩, d') := by
  exact ⟨d, by rw [readHeader_eq, h.nextLine_nil, ← h.line]; rfl⟩

theorem Before.readHeader_headerLine {header : Header} (h : d.Before n (line :: ls))
    (hl : HeaderLine header line) :
    ∃ d' : Dimacs, d'.Before (n + 1) ls ∧ d.readHeader = (.ok header, d') := by
  obtain ⟨d', hd, hb⟩ := h.nextLine_cons
  refine ⟨d', hb, ?_⟩
  rw [readHeader_of_not_comment hd hl.not_comment, if_pos hl.head?, specification_eq_ok_iff.2 hl]
  rfl

theorem Before.readHeader_error (h : d.Before n (line :: ls)) (hc : ¬ Comment line)
    (hl : ∀ header, ¬ HeaderLine header line) :
    ∃ cause d', d.readHeader = (.error ⟨cause, n + 1⟩, d') := by
  obtain ⟨d', hd, hb⟩ := h.nextLine_cons
  rw [readHeader_of_not_comment hd hc]
  split
  next =>
    cases hs : specification line with
    | ok header => exact absurd (specification_eq_ok_iff.1 hs) (hl header)
    | error cause => exact ⟨cause, d', by rw [located, hb.line]⟩
  next => exact ⟨.unexpectedPreamble, d', by rw [located, hb.line]⟩

end Header

section Clauses

variable (found : List Clause)

theorem Before.restFrom_body (h : d.Before n (body ++ ls)) (hb : Body cs body) :
    ∃ d' : Dimacs, d'.Before (n + body.length) ls ∧
      ClauseSource.restFrom found d = ClauseSource.restFrom (cs.reverse ++ found) d' := by
  induction hb generalizing d n found with
  | nil => exact ⟨d, h, rfl⟩
  | @comment cs line rest hc hr ih =>
    obtain ⟨d₁, hd, h₁⟩ := Before.nextLine_cons h
    obtain ⟨d', h', hr⟩ := ih found h₁
    rw [Nat.add_right_comm] at h'
    refine ⟨d', h', Eq.trans ?_ hr⟩
    exact ClauseSource.restFrom_congr found (readClause_of_comment h.unfinished hd hc)
  | @clause c cs line rest hc hr ih =>
    obtain ⟨d₁, hd, h₁⟩ := Before.nextLine_cons h
    obtain ⟨d', h', hr⟩ := ih (c :: found) h₁
    rw [Nat.add_right_comm] at h'
    refine ⟨d', h', ?_⟩
    have hcl : ClauseSource.clause d = (.ok (some c), d₁) := by
      have hr := readClause_of_neither h.unfinished hd hc.not_comment hc.not_cutoff
      rwa [clause_eq_ok_iff.2 hc] at hr
    rw [ClauseSource.restFrom_of_clause found hcl, hr]
    simp

theorem Before.restFrom_end (h : d.Before n ls) (hl : ∀ line ∈ ls.head?, Cutoff line) :
    ∃ d', ClauseSource.restFrom found d = (found.reverse, none, d') := by
  cases ls with
  | nil =>
    exact ⟨_, ClauseSource.restFrom_of_none found (readClause_of_none h.unfinished h.nextLine_nil)⟩
  | cons line ls =>
    obtain ⟨d', hd, -⟩ := h.nextLine_cons
    exact ⟨_, ClauseSource.restFrom_of_none found
      (readClause_of_cutoff h.unfinished hd (hl line rfl))⟩

theorem Before.restFrom_error (h : d.Before n (line :: ls)) (hn : ¬ Comment line)
    (hp : ¬ Cutoff line) (hl : ∀ c, ¬ ClauseLine c line) :
    ∃ cause d', ClauseSource.restFrom found d = (found.reverse, some ⟨cause, n + 1⟩, d') := by
  obtain ⟨d', hd, hb⟩ := h.nextLine_cons
  have hr := readClause_of_neither h.unfinished hd hn hp
  cases hc : clause line with
  | ok c => exact absurd (clause_eq_ok_iff.1 hc) (hl c)
  | error cause =>
    refine ⟨cause, d', ClauseSource.restFrom_of_error found (hr.trans ?_)⟩
    rw [hc, ← hb.line]
    rfl

end Clauses

/-- The clauses read after the header, until there are no more or there is a fault. If there is
none, the text gives a formula with that header. -/
def readFormula (bytes : Bytes) : List Clause × Except ParseFault Header :=
  match readHeader (ofBytes bytes) with
  | (.error fault, _) => ([], .error fault)
  | (.ok header, d) =>
    match ClauseSource.rest d with
    | (cs, some fault, _) => (cs, .error fault)
    | (cs, none, _) => (cs, .ok header)

theorem readFormula_of_document (hd : Document h cs (lines bytes)) :
    readFormula bytes = (cs, .ok h) := by
  have hb := before_ofBytes bytes
  generalize lines bytes = ls at hd hb
  obtain ⟨hc, hh, hbody, ht⟩ := hd
  obtain ⟨d₁, hb, e₁⟩ := hb.readHeader_comments hc
  obtain ⟨d₂, hb, e₂⟩ := hb.readHeader_headerLine hh
  obtain ⟨d₃, hb, e₃⟩ := hb.restFrom_body [] hbody
  obtain ⟨d₄, e₄⟩ := hb.restFrom_end (cs.reverse ++ []) ht
  rw [readFormula, e₁, e₂]
  dsimp only
  rw [ClauseSource.rest, e₃, e₄]
  simp

theorem readFormula_of_malformed (hm : Malformed cs n (lines bytes)) :
    ∃ cause, readFormula bytes = (cs, .error ⟨cause, n⟩) := by
  have hb := before_ofBytes bytes
  generalize lines bytes = ls at hm hb
  unfold readFormula
  cases hm with
  | headless hc =>
    rw [← List.append_nil ls] at hb
    obtain ⟨d₁, hb, e₁⟩ := hb.readHeader_comments hc
    obtain ⟨d₂, e₂⟩ := hb.readHeader_nil
    rw [Nat.zero_add] at e₂
    exact ⟨_, by rw [e₁, e₂]⟩
  | preamble hc hn hh =>
    obtain ⟨d₁, hb, e₁⟩ := hb.readHeader_comments hc
    obtain ⟨cause, d₂, e₂⟩ := hb.readHeader_error hn hh
    rw [Nat.zero_add] at e₂
    exact ⟨cause, by rw [e₁, e₂]⟩
  | body hc hh hbody hn hp hl =>
    obtain ⟨d₁, hb, e₁⟩ := hb.readHeader_comments hc
    obtain ⟨d₂, hb, e₂⟩ := hb.readHeader_headerLine hh
    obtain ⟨d₃, hb, e₃⟩ := hb.restFrom_body [] hbody
    obtain ⟨cause, d₄, e₄⟩ := hb.restFrom_error (cs.reverse ++ []) hn hp hl
    rw [Nat.zero_add] at e₄
    refine ⟨cause, ?_⟩
    rw [e₁, e₂]
    dsimp only
    rw [ClauseSource.rest, e₃, e₄]
    simp

theorem exists_comments (ls : List Bytes) :
    ∃ comments rest, ls = comments ++ rest ∧ (∀ line ∈ comments, Comment line) ∧
      ∀ line ∈ rest.head?, ¬ Comment line := by
  induction ls with
  | nil => exact ⟨[], [], rfl, nofun, nofun⟩
  | cons line ls ih =>
    by_cases hl : Comment line
    · obtain ⟨comments, rest, rfl, hc, hr⟩ := ih
      exact ⟨line :: comments, rest, rfl, List.forall_mem_cons.2 ⟨hl, hc⟩, hr⟩
    · exact ⟨[], line :: ls, rfl, nofun, fun _ h ↦ by cases h; exact hl⟩

theorem exists_body (ls : List Bytes) :
    ∃ cs body rest, ls = body ++ rest ∧ Body cs body ∧
      ∀ line ∈ rest.head?, ¬ Comment line ∧ ∀ c, ¬ ClauseLine c line := by
  induction ls with
  | nil => exact ⟨[], [], [], rfl, .nil, nofun⟩
  | cons line ls ih =>
    obtain ⟨cs, body, rest, rfl, hb, hr⟩ := ih
    by_cases hl : Comment line
    · exact ⟨cs, line :: body, rest, rfl, .comment hl hb, hr⟩
    by_cases hc : ∃ c, ClauseLine c line
    · obtain ⟨c, hc⟩ := hc
      exact ⟨c :: cs, line :: body, rest, rfl, .clause hc hb, hr⟩
    · exact ⟨[], [], _, rfl, .nil, fun _ h ↦ by cases h; exact ⟨hl, not_exists.1 hc⟩⟩

theorem document_or_malformed (ls : List Bytes) :
    (∃ h cs, Document h cs ls) ∨ ∃ cs n, Malformed cs n ls := by
  obtain ⟨comments, rest, rfl, hc, hr⟩ := exists_comments ls
  cases rest with
  | nil =>
    rw [List.append_nil]
    exact .inr ⟨_, _, .headless hc⟩
  | cons header rest =>
    by_cases hh : ∃ h, HeaderLine h header
    · obtain ⟨h, hh⟩ := hh
      obtain ⟨cs, body, trailer, rfl, hb, ht⟩ := exists_body rest
      cases trailer with
      | nil => exact .inl ⟨h, cs, .parts hc hh hb nofun⟩
      | cons line trailer =>
        obtain ⟨hn, hl⟩ := ht line rfl
        by_cases hp : Cutoff line
        · exact .inl ⟨h, cs, .parts hc hh hb fun _ h ↦ by cases h; exact hp⟩
        · exact .inr ⟨_, _, .body hc hh hb hn hp hl⟩
    · exact .inr ⟨_, _, .preamble hc (hr header rfl) (not_exists.1 hh)⟩

/-- The reader takes just the texts of the grammar, and reads their header and clauses. From any
other text it reads the clauses before the first line not allowed, and the fault has the number of
that line. -/
theorem readFormula_spec (bytes : Bytes) :
    (∀ h cs, readFormula bytes = (cs, .ok h) ↔ Document h cs (lines bytes)) ∧
    ∀ cs n, (∃ cause, readFormula bytes = (cs, .error ⟨cause, n⟩)) ↔
      Malformed cs n (lines bytes) := by
  -- Every text is of one of the two kinds, so that what the reader does with each of them tells them
  -- apart.
  refine ⟨fun h cs ↦ ⟨fun hr ↦ ?_, readFormula_of_document⟩,
    fun cs n ↦ ⟨fun ⟨cause, hr⟩ ↦ ?_, readFormula_of_malformed⟩⟩
  · rcases document_or_malformed (lines bytes) with ⟨h', cs', hd⟩ | ⟨cs', n, hm⟩
    · cases hr.symm.trans (readFormula_of_document hd)
      exact hd
    · obtain ⟨cause, hm⟩ := readFormula_of_malformed hm
      cases hr.symm.trans hm
  · rcases document_or_malformed (lines bytes) with ⟨h', cs', hd⟩ | ⟨cs', n', hm⟩
    · cases hr.symm.trans (readFormula_of_document hd)
    · obtain ⟨cause', hm'⟩ := readFormula_of_malformed hm
      cases hr.symm.trans hm'
      exact hm

end Dimacs

end Dpll
