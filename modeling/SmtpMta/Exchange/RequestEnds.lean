import SmtpMta.Library.CrlfScan
import SmtpMta.Exchange.Phases

/-! When the server hears the end of a request. The pair that ends it, and before the dot
that ends a message the pair of the line before, must each come whole in one read, and must
not be passed over there; otherwise the server waits for more, and so does the client. -/
namespace SmtpMta.Exchange.RequestEnds
open Library.CString Library.Crlf Client.Fsm Server.Smtp Server.ReadLoop Server.Lines Server.Protocol
  Server.Commands Server.Reading Phases

def dotLine : Bytes := ascii "." ++ crlf

/-- The end of the request has still to be read, and can be found. -/
inductive Ahead (p : Phase) (held coming : Bytes) : Prop where
  | line : p ≠ .text → crlf <:+ coming → Ahead p held coming
  | text : p = .text → crlf ++ dotLine <:+ coming → Ahead p held coming
  | dot : p = .text → held ++ coming = dotLine → crlf <:+ coming → Ahead p held coming

/-- The end of the request has been read, or will be, but cannot be found. -/
inductive Gone (p : Phase) (held coming : Bytes) : Prop where
  | whole : coming = [] → Gone p held coming
  | half : coming = [lf] → Gone p held coming
  | joined : p = .text → cr ∈ held → coming <:+ lf :: dotLine → Gone p held coming

/-- The read passes over a pair that ends the request. -/
def EndMissed (p : Phase) (input rest : Bytes) : Prop :=
  PairMissed input rest [] ∨ (p = .text ∧ PairMissed input rest dotLine)

section Pieces
variable {s s' : Served} {pieces : List Bytes} {tail last : Bytes}

theorem obey_held (h : obey s last = some s') : s'.dialogue.held = [] := by
  unfold obey at h
  split at h
  · cases h
  · obtain ⟨⟨ret, text, d'⟩, hanswer, rfl⟩ := Option.map_eq_some_iff.mp h
    exact answer_held hanswer

theorem take_held (h : take (pieces, tail) s = some s') :
    s'.dialogue.held.flatten = (if pieces = [] then s.dialogue.held.flatten else []) ++ tail := by
  obtain ⟨s₁, hpieces, hhold⟩ := Option.bind_eq_some_iff.mp h
  have hpast : s₁.dialogue.held.flatten = if pieces = [] then s.dialogue.held.flatten else [] := by
    rcases List.eq_nil_or_concat' pieces with rfl | ⟨init, last, rfl⟩
    · obtain rfl := Option.some.inj hpieces
      rfl
    · rw [List.foldlM_append] at hpieces
      obtain ⟨s₂, -, hlast⟩ := Option.bind_eq_some_iff.mp hpieces
      have hobey : obey s₂ last = some s₁ := by simpa using hlast
      simp [obey_held hobey]
  rw [← hpast]
  unfold hold at hhold
  split at hhold
  · rename_i htail
    obtain rfl := Option.some.inj hhold
    simpa using htail
  · split at hhold
    · cases hhold
    · obtain rfl := Option.some.inj hhold
      simp

theorem take_append (pieces more : List Bytes) :
    take (pieces ++ more, tail) s = (take (pieces, []) s).bind (take (more, tail)) := by
  have hhold (s : Served) : hold [] s = some s := rfl
  simp only [take, List.foldlM_append, Option.bind_eq_bind, Option.bind_assoc, hhold,
    Option.bind_some]

end Pieces

section Mail
variable {mailFrom mailTo : Bytes} {p : Phase} {s s' : Served} {input rest : Bytes}

theorem ahead_request {request : Bytes} (h : IsRequest mailFrom mailTo p request) :
    Ahead p [] request := by
  rcases h with ⟨line, hline, rfl⟩ | ⟨rfl, text, -, -, rfl⟩
  · refine .line ?_ ⟨line, rfl⟩
    rintro rfl
    cases hline
  · exact .text rfl ⟨text, rfl⟩

theorem Ahead.ne_nil {held coming : Bytes} (h : Ahead p held coming) : coming ≠ [] := by
  rintro rfl
  cases h with
  | line _ hend => simp [crlf] at hend
  | text _ hend => simp [crlf] at hend
  | dot _ _ hend => simp [crlf] at hend

theorem Hears.nulFree_held (hfrom : regexMail.rmatch mailFrom = true)
    (hto : regexMail.rmatch mailTo = true) (h : Hears mailFrom mailTo p s rest) :
    NulFree (s.dialogue.held.flatten ++ rest) := by
  obtain ⟨request, done, hrequest, hpending, -⟩ := h.pending
  have hall := hrequest.nulFree hfrom hto
  rw [hpending] at hall
  exact (nulFree_append.mp hall).2

theorem obey_state (hfrom : regexMail.rmatch mailFrom = true) (hto : regexMail.rmatch mailTo = true)
    {piece : Bytes} (h : Hears mailFrom mailTo .text s (piece ++ crlf ++ rest))
    (hobey : obey s piece = some s') :
    s'.dialogue.state = .mailData ↔ s.dialogue.held.flatten ++ piece ≠ ascii "." := by
  have hstate : s.dialogue.state = .mailData := congrArg Prod.fst h.stage
  have hall := Hears.nulFree_held hfrom hto h
  rw [← List.append_assoc, ← List.append_assoc] at hall
  have hfree : NulFree (s.dialogue.held.flatten ++ piece) :=
    (nulFree_append.mp (nulFree_append.mp hall).1).1
  by_cases hdot : s.dialogue.held.flatten ++ piece = ascii "."
  · simp only [obey, h.opened, Bool.false_eq_true, if_false, hdot, answer_dot hstate,
      Option.map_some, Option.some_inj] at hobey
    obtain rfl := hobey
    simp [fresh, hdot]
  · have hline : cstr (s.dialogue.held.flatten ++ piece) ≠ ascii "." := by
      rwa [cstr_of_nulFree hfree]
    simp only [obey, h.opened, Bool.false_eq_true, if_false, answer_line hstate hline,
      Option.map_some, Option.some_inj] at hobey
    obtain rfl := hobey
    simp [hstate, hdot]

theorem take_state (hfrom : regexMail.rmatch mailFrom = true) (hto : regexMail.rmatch mailTo = true)
    {lines : List Bytes} {last : Bytes}
    (h : Hears mailFrom mailTo .text s (joinCrlf (lines ++ [last]) rest)) (hreply : s.reply = [])
    (htake : take (lines ++ [last], []) s = some s') :
    s'.dialogue.state = .mailData ↔
      (if lines = [] then s.dialogue.held.flatten else []) ++ last ≠ ascii "." := by
  rw [take_append] at htake
  obtain ⟨s₁, hlines, hlast⟩ := Option.bind_eq_some_iff.mp htake
  have hobey : obey s₁ last = some s' := by simpa [take, hold] using hlast
  have hsplit : joinCrlf (lines ++ [last]) rest = joinCrlf lines [] ++ (last ++ crlf ++ rest) := by
    rw [joinCrlf_append, ← joinCrlf_tail_append, List.nil_append, joinCrlf_cons, joinCrlf_nil]
  rw [hsplit] at h
  obtain ⟨s₂, htaken, hnext⟩ := h.take hfrom hto (lines, []) hreply
  obtain rfl := Option.some.inj (hlines.symm.trans htaken)
  have hhears : Hears mailFrom mailTo .text s₁ (last ++ crlf ++ rest) := by
    rcases hnext with ⟨-, hhears⟩ | ⟨hnil, -⟩
    · exact hhears
    · simp [crlf] at hnil
  have hheld := take_held hlines
  rw [List.append_nil] at hheld
  rw [obey_state hfrom hto hhears hobey, hheld]

/-- A read is a take of its pieces, after which the request is still under way or has been
answered. -/
theorem read_cases (hfrom : regexMail.rmatch mailFrom = true) (hto : regexMail.rmatch mailTo = true)
    (h : Hears mailFrom mailTo p s (input ++ rest)) (hread : readText s (cstr input) = some s') :
    take (scanCrlf false input) { s with reply := [] } = some s' ∧
      (Hears mailFrom mailTo p s' rest ∨ (rest = [] ∧ Replied mailFrom mailTo p s')) := by
  have hfree : NulFree input := (nulFree_append.mp (h.nulFree hfrom hto)).1
  obtain ⟨s₁, hread₁, hnext⟩ := h.read hfrom hto hfree
  obtain rfl := Option.some.inj (hread.symm.trans hread₁)
  rw [readText, if_neg (by simp [h.opened]), cstr_of_nulFree hfree] at hread
  exact ⟨hread, hnext.imp And.right fun hreplied => ⟨hreplied.1, hreplied.2.2⟩⟩

theorem Hears.not_replied (h : Hears mailFrom mailTo p s rest) : ¬Replied mailFrom mailTo p s := by
  intro hreplied
  have hstage : p.stage mailFrom mailTo = p.next.stage mailFrom mailTo :=
    h.stage.symm.trans hreplied.stage
  obtain ⟨request, done, hrequest, -⟩ := h.pending
  rcases hrequest with ⟨line, hline, -⟩ | ⟨rfl, -⟩
  · cases p <;> simp_all [Phase.line, Phase.stage, Phase.next]
  · simp [Phase.stage, Phase.next] at hstage

theorem read_sent (hfrom : regexMail.rmatch mailFrom = true) (hto : regexMail.rmatch mailTo = true)
    (h : Hears mailFrom mailTo p s (input ++ rest)) (hread : readText s (cstr input) = some s') :
    (Hears mailFrom mailTo p s' rest → s'.sent = s.sent) ∧
      (Replied mailFrom mailTo p s' → s'.sent = s.sent ++ ascii p.reply) := by
  have hfree : NulFree input := (nulFree_append.mp (h.nulFree hfrom hto)).1
  obtain ⟨s₁, hread₁, hnext⟩ := h.read hfrom hto hfree
  obtain rfl := Option.some.inj (hread.symm.trans hread₁)
  rcases hnext with ⟨hsent, hhears⟩ | ⟨-, hsent, hreplied⟩
  · exact ⟨fun _ => hsent, fun hreplied => absurd hreplied (Hears.not_replied hhears)⟩
  · exact ⟨fun hhears => absurd hreplied (Hears.not_replied hhears), fun _ => hsent⟩

theorem not_replied_of_held (h : s.dialogue.held.flatten ≠ []) : ¬Replied mailFrom mailTo p s :=
  fun hreplied => h (by simp [hreplied.held])

theorem not_replied_of_mailData (h : s.dialogue.state = .mailData) :
    ¬Replied mailFrom mailTo .text s := by
  intro hreplied
  have hstate : s.dialogue.state = .established := congrArg Prod.fst hreplied.stage
  rw [h] at hstate
  cases hstate

theorem dotLine_cut {more : Bytes} (h : more ++ rest = dotLine) :
    (more = [] ∧ rest = dotLine) ∨ (more = ascii "." ∧ rest = crlf) ∨ rest = [lf] ∨
      (more = dotLine ∧ rest = []) := by
  have hdot : dotLine = [46, cr, lf] := by decide
  rw [hdot] at h ⊢
  have hletter : ascii "." = [46] := by decide
  rcases more with _ | ⟨a, _ | ⟨b, _ | ⟨c, more⟩⟩⟩ <;> simp_all [crlf]

theorem reads_dot (hfrom : regexMail.rmatch mailFrom = true) (hto : regexMail.rmatch mailTo = true)
    (h : Hears mailFrom mailTo .text s input) (hread : readText s (cstr input) = some s')
    {lines : List Bytes} {last : Bytes} (hscan : scanCrlf false input = (lines ++ [last], [])) :
    s'.dialogue.state = .mailData ↔
      (if lines = [] then s.dialogue.held.flatten else []) ++ last ≠ ascii "." := by
  rw [← List.append_nil input] at h
  obtain ⟨htake, -⟩ := read_cases hfrom hto h hread
  have hjoin : joinCrlf (lines ++ [last]) [] = input := by
    have hjoin : joinCrlf (scanCrlf false input).1 (scanCrlf false input).2 = input :=
      joinCrlf_scanCrlf false input
    rwa [hscan] at hjoin
  rw [List.append_nil, ← hjoin] at h
  rw [hscan] at htake
  have hblank : Hears mailFrom mailTo .text { s with reply := [] } (joinCrlf (lines ++ [last]) []) :=
    ⟨h.opened, h.stage, h.accounts, h.pending⟩
  exact take_state (s := { s with reply := [] }) hfrom hto hblank rfl htake

section Read
variable (hfrom : regexMail.rmatch mailFrom = true) (hto : regexMail.rmatch mailTo = true)
  (h : Hears mailFrom mailTo p s (input ++ rest)) (hread : readText s (cstr input) = some s')
include hfrom hto h hread

theorem line_read (hp : p ≠ .text) (hend : crlf <:+ input ++ rest)
    (hfound : ¬PairMissed input rest []) :
    (Hears mailFrom mailTo p s' rest ∧ Ahead p s'.dialogue.held.flatten rest) ∨
      (rest = [] ∧ Replied mailFrom mailTo p s') := by
  obtain ⟨htake, hcases⟩ := read_cases hfrom hto h hread
  obtain ⟨before, hbefore⟩ := hend
  rw [← List.append_nil crlf] at hbefore
  cases pairRead hbefore.symm with
  | later hrest =>
    rw [List.append_nil] at hrest
    have hahead : Ahead p s'.dialogue.held.flatten rest := .line hp hrest
    exact .inl ⟨hcases.resolve_right fun hnil => hahead.ne_nil hnil.1, hahead⟩
  | cut hrest => exact absurd (.inl hrest) hfound
  | missed _ _ _ hmissed => exact absurd hmissed hfound
  | @found lines line more hmore hscan _ =>
    obtain ⟨rfl, rfl⟩ := List.append_eq_nil_iff.mp hmore
    refine .inr ⟨rfl, (hcases.resolve_left fun hhears => ?_).2⟩
    -- nothing is held or to come, but a request is not empty
    rw [hscan] at htake
    have hheld := take_held htake
    obtain ⟨request, done, hrequest, hpending, hdone⟩ := hhears.pending
    obtain rfl : done = [] := hdone.resolve_right fun hlines => hp hlines.1
    have hnil : request = [] := by
      rw [hpending, hheld]
      simp [scanCrlf]
    rcases hrequest with ⟨line, -, rfl⟩ | ⟨htext, -⟩
    · simp [crlf] at hnil
    · exact hp htext

theorem pair_missed (hmissed : PairMissed input rest []) :
    Hears mailFrom mailTo p s' rest ∧ Gone p s'.dialogue.held.flatten rest := by
  obtain ⟨htake, hcases⟩ := read_cases hfrom hto h hread
  rcases id hmissed with rfl | ⟨line, more, hinput, hmore, -⟩
  · exact ⟨hcases.resolve_right fun hnil => by simp at hnil, .half rfl⟩
  · obtain ⟨rfl, rfl⟩ := List.append_eq_nil_iff.mp hmore
    have hends : input ++ [] = line ++ (crlf ++ []) := by simpa using hinput
    cases pairRead hends with
    | later hrest => simp [crlf] at hrest
    | cut hrest => cases hrest
    | found _ _ hfound => exact absurd hmissed hfound
    | @missed lines held more hmore hcr hscan _ =>
      obtain ⟨rfl, -⟩ := List.append_eq_nil_iff.mp hmore
      rw [hscan] at htake
      have hheld := take_held htake
      have hwaits : s'.dialogue.held.flatten ≠ [] := by
        intro hnil
        rw [hnil] at hheld
        have htail : cr ∈ (attach held (scanCrlf false [])).2 := by simpa [scanCrlf, attach] using hcr
        simp [(List.append_eq_nil_iff.mp hheld.symm).2] at htail
      exact ⟨hcases.resolve_right fun hnil => not_replied_of_held hwaits hnil.2, .whole rfl⟩

end Read

theorem scan_joined (hinput : input ++ rest <:+ lf :: dotLine) :
    (scanCrlf false input).1 = [] ∨
      ∃ last, scanCrlf false input = ([last], []) ∧ rest = [] := by
  have hall : ∀ k < 5, ∀ n < 5, (scanCrlf false (((lf :: dotLine).drop k).take n)).1 = [] ∨
      (scanCrlf false (((lf :: dotLine).drop k).take n)).1.length = 1 ∧
        (scanCrlf false (((lf :: dotLine).drop k).take n)).2 = [] ∧
          ((lf :: dotLine).drop k).drop n = [] := by
    decide
  obtain ⟨front, hfront⟩ := hinput
  have hdrop : (lf :: dotLine).drop front.length = input ++ rest := by
    rw [← hfront, List.drop_left]
  have hlength := congrArg List.length hfront
  simp only [List.length_append] at hlength
  have htotal : (lf :: dotLine).length = 4 := by decide
  have hcut := hall front.length (by omega) input.length (by omega)
  rw [hdrop, List.take_left, List.drop_left] at hcut
  refine hcut.imp_right fun hlast => ?_
  obtain ⟨hone, htail, hrest⟩ := hlast
  obtain ⟨last, hlines⟩ := List.length_eq_one_iff.mp hone
  exact ⟨last, Prod.ext hlines htail, hrest⟩

section Message
variable (hfrom : regexMail.rmatch mailFrom = true) (hto : regexMail.rmatch mailTo = true)
  (h : Hears mailFrom mailTo .text s (input ++ rest)) (hread : readText s (cstr input) = some s')
include hfrom hto h hread

theorem hears_of_mailData (hstate : s'.dialogue.state = .mailData) :
    Hears mailFrom mailTo .text s' rest :=
  (read_cases hfrom hto h hread).2.resolve_right fun hreplied =>
    not_replied_of_mailData hstate hreplied.2

theorem replied_of_dot (hstate : s'.dialogue.state ≠ .mailData) :
    rest = [] ∧ Replied mailFrom mailTo .text s' :=
  (read_cases hfrom hto h hread).2.resolve_left fun hhears =>
    hstate (congrArg Prod.fst hhears.stage)

theorem text_read (hend : crlf ++ dotLine <:+ input ++ rest) (hlast : ¬PairMissed input rest [])
    (hbefore : ¬PairMissed input rest dotLine) :
    (Hears mailFrom mailTo .text s' rest ∧ Ahead .text s'.dialogue.held.flatten rest) ∨
      (rest = [] ∧ Replied mailFrom mailTo .text s') := by
  obtain ⟨htake, hcases⟩ := read_cases hfrom hto h hread
  have hgoes (hahead : Ahead .text s'.dialogue.held.flatten rest) :
      Hears mailFrom mailTo .text s' rest ∧ Ahead .text s'.dialogue.held.flatten rest :=
    ⟨hcases.resolve_right fun hnil => hahead.ne_nil hnil.1, hahead⟩
  obtain ⟨before, hsplit⟩ := hend
  cases pairRead hsplit.symm with
  | later hrest => exact .inl (hgoes (.text rfl hrest))
  | cut hrest => exact absurd (.inl hrest) hbefore
  | missed _ _ _ hmissed => exact absurd hmissed hbefore
  | @found lines line more hmore hscan _ =>
    have hpieces : lines ++ line :: (scanCrlf false more).1 ≠ [] := by simp
    rw [hscan] at htake
    have hheld := take_held htake
    rw [if_neg hpieces, List.nil_append] at hheld
    rcases dotLine_cut hmore with ⟨rfl, rfl⟩ | ⟨rfl, rfl⟩ | hhalf | ⟨rfl, rfl⟩
    · exact .inl (hgoes (.dot rfl (by rw [hheld]; rfl) ⟨ascii ".", rfl⟩))
    · exact .inl (hgoes (.dot rfl (by rw [hheld]; rfl) ⟨[], rfl⟩))
    · exact absurd (.inl hhalf) hlast
    · have hdot : scanCrlf false input = (lines ++ [line] ++ [ascii "."], []) := by
        rw [hscan]
        simp [show scanCrlf false dotLine = ([ascii "."], []) by decide]
      rw [List.append_nil] at h
      have hstate := reads_dot hfrom hto h hread hdot
      rw [if_neg (by simp), List.nil_append] at hstate
      rw [← List.append_nil input] at h
      exact .inr (replied_of_dot hfrom hto h hread fun hdata => hstate.mp hdata rfl)

theorem text_missed (hend : crlf ++ dotLine <:+ input ++ rest)
    (hmissed : PairMissed input rest dotLine) :
    Hears mailFrom mailTo .text s' rest ∧ Gone .text s'.dialogue.held.flatten rest := by
  obtain ⟨htake, hcases⟩ := read_cases hfrom hto h hread
  have hwaits (hrest : rest ≠ []) : Hears mailFrom mailTo .text s' rest :=
    hcases.resolve_right fun hnil => hrest hnil.1
  obtain ⟨before, hsplit⟩ := hend
  cases pairRead hsplit.symm with
  | later hrest =>
    have hlong := hrest.length_le
    have hshort := hmissed.length_le
    rw [List.length_append] at hlong
    simp only [crlf, List.length_cons, List.length_nil] at hlong
    omega
  | cut hrest hcr =>
    have hheld := take_held htake
    exact ⟨hwaits (by simp [hrest]), .joined rfl (hheld ▸ List.mem_append_right _ hcr)
      (hrest ▸ List.suffix_rfl)⟩
  | found _ _ hfound => exact absurd hmissed hfound
  | @missed lines held more hmore hcr hscan _ =>
    rw [hscan] at htake
    have hheld := take_held htake
    rcases dotLine_cut hmore with ⟨rfl, rfl⟩ | ⟨rfl, rfl⟩ | hhalf | ⟨rfl, rfl⟩
    · refine ⟨hwaits (by decide), .joined rfl ?_ (List.suffix_cons lf dotLine)⟩
      rw [hheld]
      exact List.mem_append_right _ (List.mem_append_left _ hcr)
    · refine ⟨hwaits (by decide), .joined rfl ?_ ⟨lf :: ascii ".", rfl⟩⟩
      rw [hheld]
      exact List.mem_append_right _ (List.mem_append_left _ hcr)
    · exact ⟨hwaits (by simp [hhalf]), .half hhalf⟩
    · have hdot : scanCrlf false input = (lines ++ [held ++ ascii "."], []) := by
        rw [hscan]
        simp [show scanCrlf false dotLine = ([ascii "."], []) by decide, attach]
      have hother : (if lines = [] then s.dialogue.held.flatten else []) ++ (held ++ ascii ".") ≠
          ascii "." := by
        intro heq
        have hmem : cr ∈ ascii "." := by
          rw [← heq]
          exact List.mem_append_right _ (List.mem_append_left _ hcr)
        exact absurd hmem (by decide)
      rw [List.append_nil] at h
      have hstate := (reads_dot hfrom hto h hread hdot).mpr hother
      rw [← List.append_nil input] at h
      exact ⟨hears_of_mailData hfrom hto h hread hstate, .whole rfl⟩

theorem dot_read (hinput : input ≠ []) (hdot : s.dialogue.held.flatten ++ (input ++ rest) = dotLine)
    (hend : crlf <:+ input ++ rest) (hlast : ¬PairMissed input rest []) :
    (Hears mailFrom mailTo .text s' rest ∧ Ahead .text s'.dialogue.held.flatten rest) ∨
      (rest = [] ∧ Replied mailFrom mailTo .text s') := by
  obtain ⟨htake, hcases⟩ := read_cases hfrom hto h hread
  obtain ⟨before, hsplit⟩ := hend
  rw [← List.append_nil crlf] at hsplit
  cases pairRead hsplit.symm with
  | later hrest =>
    -- the dot is all that can have been read
    rw [List.append_nil] at hrest
    obtain ⟨more, rfl⟩ := hrest
    rw [← List.append_assoc, ← List.append_assoc, dotLine] at hdot
    have hone := List.append_cancel_right hdot
    have hpieces : s.dialogue.held.flatten = [] ∧ input = ascii "." ∧ more = [] := by
      have hlength := congrArg List.length hone
      have hpos := List.length_pos_iff.mpr hinput
      have hsingle : (ascii ".").length = 1 := rfl
      simp only [List.length_append] at hlength
      have hheld : s.dialogue.held.flatten = [] := List.length_eq_zero_iff.mp (by omega)
      have hmore : more = [] := List.length_eq_zero_iff.mp (by omega)
      rw [hheld, hmore, List.nil_append, List.append_nil] at hone
      exact ⟨hheld, hone, hmore⟩
    obtain ⟨hnothing, rfl, rfl⟩ := hpieces
    rw [show scanCrlf false (ascii ".") = ([], ascii ".") by decide] at htake
    have hheld := take_held htake
    have hahead : Ahead .text s'.dialogue.held.flatten ([] ++ crlf) := by
      refine .dot rfl ?_ List.suffix_rfl
      rw [hheld]
      simp [hnothing, dotLine]
    exact .inl ⟨hcases.resolve_right fun hnil => hahead.ne_nil hnil.1, hahead⟩
  | cut hrest => exact absurd (.inl hrest) hlast
  | missed _ _ _ hmissed => exact absurd hmissed hlast
  | @found lines line more hmore hscan _ =>
    obtain ⟨rfl, rfl⟩ := List.append_eq_nil_iff.mp hmore
    have hpieces : scanCrlf false input = (lines ++ [line], []) := by simpa [scanCrlf] using hscan
    have hjoin : joinCrlf (scanCrlf false input).1 (scanCrlf false input).2 = input :=
      joinCrlf_scanCrlf false input
    rw [hpieces, joinCrlf_append, ← List.nil_append (joinCrlf [line] []), joinCrlf_tail_append,
      joinCrlf_cons, joinCrlf_nil, List.append_nil] at hjoin
    rw [List.append_nil, ← hjoin, dotLine, ← List.append_assoc, ← List.append_assoc] at hdot
    have hone := List.append_cancel_right hdot
    have hlines : lines = [] := by
      cases lines with
      | nil => rfl
      | cons first lines =>
        have hlength := congrArg List.length hone
        simp [crlf, ascii] at hlength
        omega
    rw [List.append_nil] at h
    have hstate := reads_dot hfrom hto h hread hpieces
    rw [if_pos hlines] at hstate
    rw [hlines, joinCrlf_nil, List.append_nil] at hone
    rw [← List.append_nil input] at h
    exact .inr (replied_of_dot hfrom hto h hread fun hdata => hstate.mp hdata hone)

end Message

section Read
variable (hfrom : regexMail.rmatch mailFrom = true) (hto : regexMail.rmatch mailTo = true)
  (h : Hears mailFrom mailTo p s (input ++ rest)) (hread : readText s (cstr input) = some s')
include hfrom hto h hread

theorem ahead_read (hinput : input ≠ []) (hahead : Ahead p s.dialogue.held.flatten (input ++ rest))
    (hfound : ¬EndMissed p input rest) :
    (Hears mailFrom mailTo p s' rest ∧ Ahead p s'.dialogue.held.flatten rest) ∨
      (rest = [] ∧ Replied mailFrom mailTo p s') := by
  have hlast : ¬PairMissed input rest [] := fun hmissed => hfound (.inl hmissed)
  cases hahead with
  | line hp hend => exact line_read hfrom hto h hread hp hend hlast
  | text hp hend =>
    subst hp
    exact text_read hfrom hto h hread hend hlast fun hmissed => hfound (.inr ⟨rfl, hmissed⟩)
  | dot hp hdot hend =>
    subst hp
    exact dot_read hfrom hto h hread hinput hdot hend hlast

theorem ahead_missed (hahead : Ahead p s.dialogue.held.flatten (input ++ rest))
    (hmissed : EndMissed p input rest) :
    Hears mailFrom mailTo p s' rest ∧ Gone p s'.dialogue.held.flatten rest := by
  rcases hmissed with hlast | ⟨rfl, hbefore⟩
  · exact pair_missed hfrom hto h hread hlast
  · cases hahead with
    | line hp => exact absurd rfl hp
    | text _ hend => exact text_missed hfrom hto h hread hend hbefore
    | dot _ hdot _ =>
      -- three bytes are too few
      have hlength := congrArg List.length hdot
      have hthree : dotLine.length = 3 := by decide
      simp only [List.length_append] at hlength
      rcases hbefore with rfl | ⟨line, more, rfl, hmore, -⟩
      · rw [List.length_cons] at hlength
        omega
      · have hlength' := congrArg List.length hmore
        simp only [List.length_append, crlf, List.length_cons, List.length_nil] at hlength hlength'
        omega

theorem gone_read (hinput : input ≠ []) (hgone : Gone p s.dialogue.held.flatten (input ++ rest)) :
    Hears mailFrom mailTo p s' rest ∧ Gone p s'.dialogue.held.flatten rest := by
  obtain ⟨htake, hcases⟩ := read_cases hfrom hto h hread
  have hheld := take_held htake
  have hwaits (hne : s'.dialogue.held.flatten ≠ []) : Hears mailFrom mailTo p s' rest :=
    hcases.resolve_right fun hnil => not_replied_of_held hne hnil.2
  cases hgone with
  | whole hnil => exact absurd (List.append_eq_nil_iff.mp hnil).1 hinput
  | half hhalf =>
    obtain ⟨rfl, rfl⟩ : input = [lf] ∧ rest = [] := by
      rcases List.append_eq_singleton_iff.mp hhalf with ⟨hnil, -⟩ | hsplit
      · exact absurd hnil hinput
      · exact hsplit
    refine ⟨hwaits ?_, .whole rfl⟩
    rw [hheld]
    simp [scanCrlf, cr, lf, prepend]
  | joined hp hcr hsuffix =>
    subst hp
    have hjoin : joinCrlf (scanCrlf false input).1 (scanCrlf false input).2 = input :=
      joinCrlf_scanCrlf false input
    rcases scan_joined hsuffix with hnone | ⟨last, hscan, rfl⟩
    · rw [hnone, if_pos rfl] at hheld
      have hmem : cr ∈ s'.dialogue.held.flatten := hheld ▸ List.mem_append_left _ hcr
      exact ⟨hwaits (List.ne_nil_of_mem hmem),
        .joined rfl hmem ((List.suffix_append input rest).trans hsuffix)⟩
    · have hother : (if ([] : List Bytes) = [] then s.dialogue.held.flatten else []) ++ last ≠
          ascii "." := by
        intro heq
        have hmem : cr ∈ ascii "." := heq ▸ List.mem_append_left _ (by simpa using hcr)
        exact absurd hmem (by decide)
      rw [List.append_nil] at h
      have hstate := (reads_dot hfrom hto h hread hscan).mpr hother
      rw [← List.append_nil input] at h
      exact ⟨hears_of_mailData hfrom hto h hread hstate, .whole rfl⟩

end Read

end Mail

end SmtpMta.Exchange.RequestEnds
