import SabakaOS.Network.Dns

namespace Dns

open Word ByteMemory Prog

-- Nothing of the packet is read behind its length, and nothing of the other buffer is touched
-- behind its size.
structure Within (pktLen outMax : Nat) (s : Bufs) : Prop where
  reads : ∀ r ∈ s.reads, r.1 + r.2 ≤ pktLen
  outs : ∀ w ∈ s.outs, w.1 + w.2 ≤ outMax

abbrev Ends {α : Type} (p : Parser α) (s : Bufs) (Q : α → Bufs → Prop) : Prop :=
  Runs p s Q (fun _ => False)

section Primitives

variable {pktLen outMax off n : Nat} {s : Bufs}

theorem Within.read (h : Within pktLen outMax s) (hin : off + n ≤ pktLen) :
    Within pktLen outMax { s with reads := (off, n) :: s.reads } where
  reads r hr := by
    rcases List.mem_cons.mp hr with rfl | hr
    · exact hin
    · exact h.reads r hr
  outs := h.outs

theorem Within.touch (h : Within pktLen outMax s) (hin : off + n ≤ outMax)
    (out : Nat → UInt8) : Within pktLen outMax { s with out := out, outs := (off, n) :: s.outs } where
  reads := h.reads
  outs w hw := by
    rcases List.mem_cons.mp hw with rfl | hw
    · exact hin
    · exact h.outs w hw

theorem pktBytes_within (h : Within pktLen outMax s) (hin : off + n ≤ pktLen) :
    Ends (pktBytes off n) s (fun bs s' => Within pktLen outMax s' ∧ bs.length = n) :=
  Runs.modify_bind (Runs.get_bind (Runs.pure ⟨h.read hin, readBytes_length _ _ _⟩))

theorem pktByte_within (h : Within pktLen outMax s) (hin : off + 1 ≤ pktLen) :
    Ends (pktByte off) s (fun _ s' => Within pktLen outMax s') :=
  Runs.modify_bind (Runs.get_bind (Runs.pure (h.read hin)))

theorem pktShort_within (h : Within pktLen outMax s) (hin : off + 2 ≤ pktLen) :
    Ends (pktShort off) s (fun _ s' => Within pktLen outMax s') := by
  refine (pktByte_within h (by omega)).then fun high s1 h1 => ?_
  refine (pktByte_within h1 (by omega)).then fun low s2 h2 => ?_
  exact Runs.pure h2

theorem pktWord_within (h : Within pktLen outMax s) (hin : off + 4 ≤ pktLen) :
    Ends (pktWord off) s (fun _ s' => Within pktLen outMax s') := by
  refine (pktShort_within h (by omega)).then fun high s1 h1 => ?_
  refine (pktShort_within h1 (by omega)).then fun low s2 h2 => ?_
  exact Runs.pure h2

theorem putOut_within (h : Within pktLen outMax s) {bytes : List UInt8}
    (hin : off + bytes.length ≤ outMax) :
    Ends (putOut off bytes) s (fun _ s' => Within pktLen outMax s') :=
  h.touch hin (writeBytes s.out off bytes)

theorem dropDot_within (h : Within pktLen outMax s) {outPos : Nat} (hin : outPos < outMax) :
    Ends (dropDot outPos) s (fun r s' => Within pktLen outMax s' ∧ r < outMax) := by
  unfold dropDot
  split
  · have hread : Ends (outByte (outPos - 1)) s (fun _ s' => Within pktLen outMax s') :=
      h.touch (by omega : outPos - 1 + 1 ≤ outMax) s.out
    refine hread.then fun last s1 h1 => Runs.pure ⟨h1, ?_⟩
    split <;> omega
  · exact Runs.pure ⟨h, hin⟩

end Primitives

section Decode

variable {pktLen outMax start : Nat}

-- The turns that a scan at pos has left after some jumps.
def turns (pktLen jumps pos : Nat) : Nat := (10 - jumps) * (pktLen + 1) + (pktLen - pos) + 1

def maxTurns (pktLen : Nat) : Nat := 11 * (pktLen + 1)

theorem turns_le (pktLen pos : Nat) : turns pktLen 0 pos ≤ maxTurns pktLen := by
  unfold turns maxTurns
  omega

theorem turns_jump {jumps pos ptr fuel : Nat} (hj : jumps + 1 ≤ 10)
    (h : turns pktLen jumps pos ≤ fuel + 1) : turns pktLen (jumps + 1) ptr ≤ fuel := by
  unfold turns at *
  obtain ⟨k, hk⟩ := Nat.exists_eq_add_of_le' hj
  rw [show 10 - jumps = k + 1 by omega, Nat.succ_mul] at h
  rw [show 10 - (jumps + 1) = k by omega]
  omega

theorem turns_label {jumps pos next fuel : Nat} (hpos : pos < pktLen) (hnext : pos < next)
    (h : turns pktLen jumps pos ≤ fuel + 1) : turns pktLen jumps next ≤ fuel := by
  unfold turns at *
  omega

-- Where a scan that began at start will say it ended.
def EndsAfter (pktLen start pos : Nat) : Option Nat → Prop
  | none => start ≤ pos
  | some e => start < e ∧ e ≤ pktLen

theorem decodeLoop_within (hp : pktLen < 65536) (ho : outMax < 65536) (fuel : Nat) :
    ∀ (pos outPos jumps : Nat) (endPos : Option Nat) (s : Bufs), outPos < outMax → jumps ≤ 10 →
      EndsAfter pktLen start pos endPos → turns pktLen jumps pos ≤ fuel → Within pktLen outMax s →
      Ends (decodeLoop pktLen outMax fuel pos outPos jumps endPos) s (fun r s' =>
        Within pktLen outMax s' ∧ ∀ next, r = some next → start < next ∧ next ≤ pktLen) := by
  induction fuel with
  | zero =>
    intro pos outPos jumps endPos s _ _ _ hfuel _
    exact absurd hfuel (by unfold turns; omega)
  | succ fuel ih =>
    intro pos outPos jumps endPos s hout hjumps hend hfuel hs
    rw [decodeLoop]
    split
    · next hpos =>
      refine (pktByte_within hs (by omega)).then fun len s1 h1 => ?_
      split
      · refine (dropDot_within h1 hout).then fun outPos s2 h2 => ?_
        refine (putOut_within h2.1 h2.2).then fun _ s3 h3 => Runs.pure ⟨h3, fun next hn => ?_⟩
        obtain rfl := Option.some.inj hn
        cases endPos with
        | none => exact ⟨Nat.lt_succ_of_le hend, hpos⟩
        | some e => exact hend
      · split
        · split
          · exact Runs.pure ⟨h1, fun _ hn => absurd hn (by simp)⟩
          · next hlow =>
            refine (pktByte_within h1 (by omega)).then fun low s2 h2 => ?_
            split
            · exact Runs.pure ⟨h2, fun _ hn => absurd hn (by simp)⟩
            · next hj =>
              refine ih _ _ _ _ _ hout (by omega) ?_ (turns_jump (by omega) hfuel) h2
              cases endPos with
              | none => exact ⟨Nat.lt_add_right 1 (Nat.lt_succ_of_le hend), by simp; omega⟩
              | some e => exact hend
        · have hnext : u16 (pos + 1) = pos + 1 := u16_of_lt (by omega)
          rw [hnext]
          split
          · exact Runs.pure ⟨h1, fun _ hn => absurd hn (by simp)⟩
          · next hlabel =>
            split
            · exact Runs.pure ⟨h1, fun _ hn => absurd hn (by simp)⟩
            · next hroom =>
              have hwrap : u16 (outPos + len.toNat) = outPos + len.toNat := u16_of_lt (by omega)
              rw [hwrap, u16_of_lt (by omega : pos + 1 + len.toNat < 65536),
                u16_of_lt (by omega : outPos + len.toNat + 1 < 65536)]
              refine (pktBytes_within h1 (by omega)).then fun label s2 h2 => ?_
              refine (putOut_within h2.1 (by omega)).then fun _ s3 h3 => ?_
              refine (putOut_within h3 (by simp; omega)).then fun _ s4 h4 => ?_
              refine ih _ _ _ _ _ (by omega) hjumps ?_ (turns_label hpos (by omega) hfuel) h4
              cases endPos with
              | none => exact Nat.le_trans hend (by omega)
              | some e => exact hend
    · exact Runs.pure ⟨hs, fun _ hn => absurd hn (by simp)⟩

theorem decodeName_within (hp : pktLen < 65536) (ho : outMax < 65536) (hmax : 1 ≤ outMax)
    {fuel : Nat} (hfuel : maxTurns pktLen ≤ fuel) (offset : Nat) {s : Bufs}
    (hs : Within pktLen outMax s) :
    Ends (decodeName fuel pktLen offset outMax) s (fun r s' =>
      Within pktLen outMax s' ∧ ∀ next, r = some next → offset < next ∧ next ≤ pktLen) :=
  decodeLoop_within hp ho fuel offset 0 0 none s hmax (by omega) (Nat.le_refl offset)
    (Nat.le_trans (turns_le pktLen offset) hfuel) hs

end Decode

section Response

variable {pktLen fuel : Nat}

theorem skipQuestions_within (hp : pktLen ≤ 512) (hfuel : maxTurns pktLen ≤ fuel) (left : Nat) :
    ∀ (pos : Nat) (s : Bufs), Within pktLen 254 s →
      Ends (skipQuestions fuel pktLen left pos) s (fun _ s' => Within pktLen 254 s') := by
  induction left with
  | zero => exact fun pos s hs => Runs.pure hs
  | succ left ih =>
    intro pos s hs
    refine (decodeName_within (by omega) (by decide) (by decide) hfuel pos hs).then
      fun next s1 h1 => ?_
    cases next with
    | none => exact Runs.pure h1.1
    | some next =>
      dsimp only
      split
      · exact Runs.pure h1.1
      · exact ih _ _ h1.1

theorem scanAnswers_within (hp : pktLen ≤ 512) (hfuel : maxTurns pktLen ≤ fuel) (left : Nat) :
    ∀ (pos : Nat) (s : Bufs), Within pktLen 254 s →
      Ends (scanAnswers fuel pktLen left pos) s (fun _ s' => Within pktLen 254 s') := by
  induction left with
  | zero => exact fun pos s hs => Runs.pure hs
  | succ left ih =>
    intro pos s hs
    rw [scanAnswers]
    split
    · exact Runs.pure hs
    · refine (decodeName_within (by omega) (by decide) (by decide) hfuel pos hs).then
        fun next s1 h1 => ?_
      cases next with
      | none => exact Runs.pure h1.1
      | some next =>
        have hnext := (h1.2 next rfl).2
        dsimp only
        rw [u16_of_lt (by omega : next < 65536)]
        split
        · exact Runs.pure h1.1
        · refine (pktShort_within h1.1 (by omega)).then fun rtype s2 h2 => ?_
          refine (pktWord_within h2 (by omega)).then fun ttl s3 h3 => ?_
          refine (pktShort_within h3 (by omega)).then fun rdlen s4 h4 => ?_
          rw [u16_of_lt (by omega : next + 10 < 65536)]
          split
          · exact Runs.pure h4
          · split
            · next ha =>
              refine (pktWord_within h4 (by omega)).then fun ip s5 h5 => ?_
              exact Runs.pure h5
            · exact ih _ _ h4

theorem parseResponse_within (hp : pktLen ≤ 512) (hfuel : maxTurns pktLen ≤ fuel) {s : Bufs}
    (hs : Within pktLen 254 s) :
    Ends (parseResponse fuel pktLen) s (fun _ s' => Within pktLen 254 s') := by
  unfold parseResponse headerSize
  split
  · exact Runs.pure hs
  · refine (pktShort_within hs (by omega)).then fun flags s1 h1 => ?_
    refine (pktShort_within h1 (by omega)).then fun ancount s2 h2 => ?_
    refine (pktShort_within h2 (by omega)).then fun qdcount s3 h3 => ?_
    split
    · exact Runs.pure h3
    · split
      · exact Runs.pure h3
      · refine (skipQuestions_within hp hfuel qdcount 12 s3 h3).then fun pos s4 h4 => ?_
        cases pos with
        | none => exact Runs.pure h4
        | some pos => exact scanAnswers_within hp hfuel ancount pos s4 h4

end Response

theorem fresh_within (pkt out : Nat → UInt8) (pktLen outMax : Nat) :
    Within pktLen outMax (fresh pkt out) :=
  ⟨fun _ h => absurd h List.not_mem_nil, fun _ h => absurd h List.not_mem_nil⟩

theorem dns_parsing_stays_inside (pkt out : Nat → UInt8) (pktLen offset outMax fuel : Nat)
    (hp : pktLen ≤ 512) (hmax : 1 ≤ outMax) (ho : outMax < 65536)
    (hfuel : maxTurns pktLen ≤ fuel) :
    Ends (decodeName fuel pktLen offset outMax) (fresh pkt out) (fun r s' =>
      Within pktLen outMax s' ∧ ∀ next, r = some next → offset < next ∧ next ≤ pktLen) ∧
    Ends (parseResponse fuel pktLen) (fresh pkt out) (fun _ s' =>
      Within pktLen (dnsMaxName + 1) s') :=
  ⟨decodeName_within (by omega) ho hmax hfuel offset (fresh_within pkt out pktLen outMax),
    parseResponse_within hp hfuel (fresh_within pkt out pktLen 254)⟩

-- A packet of nothing but pointers, each to a later place.
theorem pointers_stay_inside :
    Ends (decodeName 300 20 3 254) (fresh (fun _ => 0xC0) (fun _ => 0)) (fun r s' =>
      Within 20 254 s' ∧ ∀ next, r = some next → 3 < next ∧ next ≤ 20) ∧
    Ends (parseResponse 300 20) (fresh (fun _ => 0xC0) (fun _ => 0)) (fun _ s' =>
      Within 20 (dnsMaxName + 1) s') :=
  dns_parsing_stays_inside (fun _ => 0xC0) (fun _ => 0) 20 3 254 300 (by decide) (by decide)
    (by decide) (by decide)

end Dns
