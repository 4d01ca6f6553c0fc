import SmtpMta.Client.StackSlots

/-! Where the loop over the recipient lines stops in a call, and what it has kept
by then. -/
namespace SmtpMta.Client.KeptRecipients
open Library.CString MailFile MailParser RecipientTurns

def scannedRaws (s : MailParser.Surroundings) (lines : Slots) (m : Nat) : Slots := fun j =>
  if j < m then lines (j + 1) else memsetSlots maxToCount s.toRaws j

section Loop
variable {s : MailParser.Surroundings} {isHomeMode : Int} {lines raws : Slots} {strNum m i : Nat}
  {kept : Kept}

theorem raws_eq (h : Scanned s lines strNum m raws) : raws = scannedRaws s lines m := by
  funext j
  unfold scannedRaws
  split
  · exact h.toRaws_eq.2 j ‹_›
  · exact StackSlots.toRaws_beyond h (Nat.le_of_not_lt ‹_›)

theorem keepRecievers_stops {bound : Nat} {result : Kept ⊕ List Freed}
    (hkeeps : Keeps s isHomeMode raws i kept) (hbound : i + bound = maxToCount)
    (h : keepRecievers s isHomeMode raws bound i kept = some result) :
    ∃ n kept', Keeps s isHomeMode raws n kept' ∧
      ((result = .inl kept' ∧ (n = maxToCount ∨ raws n = .null)) ∨
        (∃ freed, result = .inr freed) ∧ n < maxToCount ∧ ∃ toRaw, (raws n).read = some toRaw ∧
          (cutAddressesFromMailFormat (s.toCut n) toRaw = some none ∨
            ∃ mailTo, cutAddressesFromMailFormat (s.toCut n) toRaw = some (some mailTo) ∧
              cutHostFromReciever (s.hostCut n) mailTo = some none)) := by
  induction bound generalizing i kept with
  | zero =>
    obtain rfl : .inl kept = result := by simpa [keepRecievers] using h
    exact ⟨i, kept, hkeeps, .inl ⟨rfl, .inl hbound⟩⟩
  | succ bound ih =>
    by_cases hnull : raws i = .null
    · rw [keepRecievers, if_pos hnull] at h
      obtain rfl : .inl kept = result := by simpa using h
      exact ⟨i, kept, hkeeps, .inl ⟨rfl, .inr hnull⟩⟩
    · have hloop := h
      rw [keepRecievers, if_neg hnull] at h
      obtain ⟨toRaw, hread, h⟩ := Option.bind_eq_some_iff.mp h
      obtain ⟨mailTo, haddress, h⟩ := Option.bind_eq_some_iff.mp h
      cases mailTo with
      | none =>
        obtain ⟨tos, -, h⟩ := Option.bind_eq_some_iff.mp h
        obtain ⟨hosts, -, h⟩ := Option.bind_eq_some_iff.mp h
        have hresult := (Option.some.inj h).symm
        exact ⟨i, kept, hkeeps, .inr ⟨⟨_, hresult⟩, by omega, toRaw, hread, .inl haddress⟩⟩
      | some mailTo =>
        obtain ⟨host, hhost, h⟩ := Option.bind_eq_some_iff.mp h
        cases host with
        | none =>
          obtain ⟨tos, -, h⟩ := Option.bind_eq_some_iff.mp h
          obtain ⟨hosts, -, h⟩ := Option.bind_eq_some_iff.mp h
          have hresult := (Option.some.inj h).symm
          exact ⟨i, kept, hkeeps,
            .inr ⟨⟨_, hresult⟩, by omega, toRaw, hread, .inr ⟨mailTo, haddress, hhost⟩⟩⟩
        | some host =>
          have hcuts : Cuts s i toRaw mailTo host := ⟨haddress, hhost⟩
          rw [keepRecievers_next hnull hread hcuts] at hloop
          exact ih (hkeeps.next (by omega) hnull hread hcuts) (by omega) hloop

theorem parseMail_started {mail : Mail} {freed : List Freed} (h : StackSlots.Headed lines strNum m)
    (hm : m ≤ maxToCount) (hpos : 1 ≤ m)
    (hparse : parseMail s lines strNum isHomeMode = some (some mail, freed)) :
    ∃ raws mailFrom n kept, Started s lines strNum m raws mailFrom ∧
      Keeps s isHomeMode raws n kept ∧ (n = maxToCount ∨ raws n = .null) ∧
      finishMail s lines strNum isHomeMode mailFrom m kept = some (some mail, freed) := by
  obtain ⟨raws, hscan⟩ := h.scan hm (memsetSlots maxToCount s.toRaws)
  obtain ⟨fromRaw, hfrom⟩ := h.stored 0 (by have := h.fits; omega)
  have hread : (lines 0).read = some fromRaw := by rw [hfrom]; rfl
  have henough : 3 ≤ strNum := by have := h.fits; omega
  by_cases hroom : s.mailRoom = true ∧ s.tosRoom = true
  · have hscanned : Scanned s lines strNum m raws := ⟨henough, hscan, hroom.1, hroom.2⟩
    rw [hscanned.parseMail hread] at hparse
    obtain ⟨cut, hcut, hparse⟩ := Option.bind_eq_some_iff.mp hparse
    cases cut with
    | none => simp at hparse
    | some mailFrom =>
      rw [Option.elim_some] at hparse
      cases hloop : keepRecievers s isHomeMode raws maxToCount 0 (nothingKept s) with
      | none => simp [hloop, afterLoop] at hparse
      | some result =>
        rw [hloop] at hparse
        cases result with
        | inr freed => simp [afterLoop] at hparse
        | inl kept =>
          obtain ⟨n, kept', hkeeps, hstop⟩ := keepRecievers_stops .start (Nat.zero_add _) hloop
          rcases hstop with ⟨hresult, hend⟩ | ⟨⟨freed, hresult⟩, -⟩
          · obtain rfl := Sum.inl.inj hresult
            exact ⟨raws, mailFrom, n, kept, ⟨hscanned, fromRaw, hread, hcut⟩, hkeeps, hend, hparse⟩
          · simp at hresult
  · rw [parseMail_of_no_room henough hscan hroom] at hparse
    simp at hparse

end Loop

end SmtpMta.Client.KeptRecipients
