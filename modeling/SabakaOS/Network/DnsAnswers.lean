import SabakaOS.Network.DnsResolver

namespace Dns

open Word ByteMemory Prog Dotted

structure Message where
  byte : Nat → UInt8
  length : Nat

-- A resource record: its owner name and the place of its type, class, TTL and data length.
structure Record where
  owner : List (List UInt8)
  fields : Nat

def dnsTypeCname : Nat := 5

def dnsClassIn : Nat := 1

namespace Message

variable (m : Message)

def short (off : Nat) : Nat := (m.byte off).toNat * 256 + (m.byte (off + 1)).toNat

def word (off : Nat) : Nat := m.short off * 65536 + m.short (off + 2)

def target (off : Nat) : Nat := (m.byte off &&& 0x3F).toNat * 256 + (m.byte (off + 1)).toNat

-- A name at an offset: the pointers met, the labels, and where the name ends in its own place.
inductive NameAt : Nat → Nat → List (List UInt8) → Nat → Prop
  | root {off : Nat} : off < m.length → m.byte off = 0 → NameAt off 0 [] (off + 1)
  | pointer {off jumps next : Nat} {labels : List (List UInt8)} : off + 1 < m.length →
      isPointer (m.byte off) = true → NameAt (m.target off) jumps labels next →
      NameAt off (jumps + 1) labels (off + 2)
  | label {off jumps next : Nat} {labels : List (List UInt8)} : m.byte off ≠ 0 →
      isPointer (m.byte off) = false → off + 1 + (m.byte off).toNat ≤ m.length →
      NameAt (off + 1 + (m.byte off).toNat) jumps labels next →
      NameAt off jumps (readBytes m.byte (m.byte off).toNat (off + 1) :: labels) next

def rtype (r : Record) : Nat := m.short r.fields

def rclass (r : Record) : Nat := m.short (r.fields + 2)

def rdlen (r : Record) : Nat := m.short (r.fields + 8)

def rdata (r : Record) : Nat := r.fields + 10

def recordEnd (r : Record) : Nat := rdata r + m.rdlen r

-- The four bytes of data as a word in network order.
def address (r : Record) : Nat := htonl (m.word (rdata r))

def HoldsAddress (r : Record) : Prop := m.rtype r = dnsTypeA ∧ m.rdlen r = 4

variable (ok : Nat → List (List UInt8) → Prop) (passed : Record → Prop)

def RecordAt (off : Nat) (r : Record) : Prop :=
  (∃ jumps, m.NameAt off jumps r.owner r.fields ∧ ok jumps r.owner) ∧ m.recordEnd r ≤ m.length

def AfterQuestion (off next : Nat) : Prop :=
  ∃ jumps labels p, m.NameAt off jumps labels p ∧ ok jumps labels ∧ next = p + 4 ∧
    next ≤ m.length

def AfterRecord (off next : Nat) : Prop :=
  ∃ r, m.RecordAt ok off r ∧ passed r ∧ next = m.recordEnd r

end Message

-- So many steps lead from one offset to the other.
def Walk (step : Nat → Nat → Prop) : Nat → Nat → Nat → Prop
  | 0, off, last => last = off
  | n + 1, off, last => ∃ mid, step off mid ∧ Walk step n mid last

namespace Message

variable (m : Message) (ok : Nat → List (List UInt8) → Prop) (passed : Record → Prop)

def RecordAfter (left off : Nat) (r : Record) : Prop :=
  ∃ n < left, ∃ p, Walk (m.AfterRecord ok passed) n off p ∧ m.RecordAt ok p r

def InSection (r : Record) : Prop :=
  ∃ off, Walk (m.AfterQuestion ok) (m.short 4) headerSize off ∧
    m.RecordAfter ok passed (m.short 6) off r

def textSize (labels : List (List UInt8)) : Nat := (labels.map fun l => l.length + 1).sum

def Readable (jumps : Nat) (labels : List (List UInt8)) : Prop :=
  jumps ≤ 10 ∧ textSize labels < dnsMaxName + 1

def WellFormed (_ : Nat) (labels : List (List UInt8)) : Prop := ∀ l ∈ labels, l.length ≤ 63

def InAnswers (r : Record) : Prop := m.InSection WellFormed (fun _ => True) r

-- The first address record that a reader of the section comes to, whatever its owner and class.
def FirstAddress (r : Record) : Prop :=
  m.short 2 &&& dnsRcodeMask = 0 ∧
    m.InSection Readable (fun r => ¬m.HoldsAddress r) r ∧ m.HoldsAddress r

end Message

def lower (c : UInt8) : UInt8 := if 65 ≤ c ∧ c ≤ 90 then c + 32 else c

def SameName (labels labels' : List (List UInt8)) : Prop :=
  labels.map (List.map lower) = labels'.map (List.map lower)

-- The queried name and the names that CNAME records of the answers lead to from it.
inductive Reached (m : Message) (hostname : List UInt8) : List (List UInt8) → Prop
  | queried {labels : List (List UInt8)} : Writes dot labels hostname → Reached m hostname labels
  | followed {name labels : List (List UInt8)} {r : Record} {jumps next : Nat} :
      Reached m hostname name → m.InAnswers r → m.rtype r = dnsTypeCname →
      SameName r.owner name → m.NameAt (Message.rdata r) jumps labels next →
      Reached m hostname labels

def AnswerFor (m : Message) (hostname : List UInt8) (ip : Nat) : Prop :=
  ∃ r name, m.InAnswers r ∧ m.rclass r = dnsClassIn ∧ m.HoldsAddress r ∧
    Reached m hostname name ∧ SameName r.owner name ∧ m.address r = ip

section Name

open Message

variable {m : Message} {off jumps next : Nat} {labels : List (List UInt8)}

theorem nameAt_root (hlt : off < m.length) (h0 : m.byte off = 0) :
    m.NameAt off jumps labels next ↔ jumps = 0 ∧ labels = [] ∧ next = off + 1 := by
  constructor
  · intro h
    cases h with
    | root => exact ⟨rfl, rfl, rfl⟩
    | pointer _ hp => rw [h0] at hp; exact absurd hp (by decide)
    | label hne => exact absurd h0 hne
  · rintro ⟨rfl, rfl, rfl⟩
    exact .root hlt h0

theorem nameAt_pointer (hp : isPointer (m.byte off) = true) :
    m.NameAt off jumps labels next ↔ off + 1 < m.length ∧
      ∃ j n, m.NameAt (m.target off) j labels n ∧ jumps = j + 1 ∧ next = off + 2 := by
  constructor
  · intro h
    cases h with
    | root _ h0 => rw [h0] at hp; exact absurd hp (by decide)
    | pointer hlt _ h => exact ⟨hlt, _, _, h, rfl, rfl⟩
    | label _ hno => exact absurd (hp.symm.trans hno) (by decide)
  · rintro ⟨hlt, j, n, h, rfl, rfl⟩
    exact .pointer hlt hp h

theorem nameAt_label (hne : m.byte off ≠ 0) (hno : isPointer (m.byte off) = false) :
    m.NameAt off jumps labels next ↔ off + 1 + (m.byte off).toNat ≤ m.length ∧
      ∃ ls, m.NameAt (off + 1 + (m.byte off).toNat) jumps ls next ∧
        labels = readBytes m.byte (m.byte off).toNat (off + 1) :: ls := by
  constructor
  · intro h
    cases h with
    | root _ h0 => exact absurd h0 hne
    | pointer _ hp => exact absurd (hp.symm.trans hno) (by decide)
    | label _ _ hle h => exact ⟨hle, _, h, rfl⟩
  · rintro ⟨hle, ls, h, rfl⟩
    exact .label hne hno hle h

theorem Message.NameAt.next_le (h : m.NameAt off jumps labels next) : next ≤ m.length := by
  induction h with
  | root hlt => exact hlt
  | pointer hlt => exact hlt
  | label _ _ _ _ ih => exact ih

theorem Message.NameAt.lt (h : m.NameAt off jumps labels next) : off < m.length := by
  cases h with
  | root hlt => exact hlt
  | pointer hlt => exact Nat.lt_of_succ_lt hlt
  | label _ _ hle => exact Nat.lt_of_succ_le (Nat.le_of_add_right_le hle)

end Name

section Decode

open Message

variable {m : Message} {s : Bufs} {off outMax n : Nat}

-- The parser has the message in front of it.
def Holding (m : Message) (s : Bufs) : Prop := ∀ i < m.length, s.pkt i = m.byte i

theorem pktByte_holding (h : Holding m s) (hlt : off < m.length) :
    Ends (pktByte off) s (fun b s' => Holding m s' ∧ b = m.byte off) := ⟨h, h off hlt⟩

theorem pktShort_holding (h : Holding m s) (hlt : off + 1 < m.length) :
    Ends (pktShort off) s (fun b s' => Holding m s' ∧ b = m.short off) :=
  ⟨h, congrArg₂ (fun a b : UInt8 => a.toNat * 256 + b.toNat) (h off (by omega)) (h (off + 1) hlt)⟩

theorem pktWord_holding (h : Holding m s) (hlt : off + 3 < m.length) :
    Ends (pktWord off) s (fun b s' => Holding m s' ∧ b = m.word off) := by
  refine (pktShort_holding h (by omega)).then fun high s1 h1 => ?_
  refine (pktShort_holding h1.1 (by omega)).then fun low s2 h2 => Runs.pure ⟨h2.1, ?_⟩
  rw [h1.2, h2.2]
  rfl

theorem putOut_holding (h : Holding m s) (off : Nat) (bytes : List UInt8) :
    Ends (putOut off bytes) s (fun _ s' => Holding m s') := h

theorem dropDot_holding (h : Holding m s) (outPos : Nat) :
    Ends (dropDot outPos) s (fun _ s' => Holding m s') := by
  unfold dropDot
  split
  · have hread : Ends (outByte (outPos - 1)) s (fun _ s' => Holding m s') := h
    exact hread.then fun last s1 h1 => Runs.pure h1
  · exact Runs.pure h

theorem target_small (m : Message) (off : Nat) : m.target off < 65536 := by
  have hhigh : (m.byte off &&& 0x3F).toNat ≤ 63 := by
    rw [UInt8.toNat_and]
    exact Nat.and_le_right
  have hlow := UInt8.toNat_lt (m.byte (off + 1))
  unfold target
  omega

theorem textSize_cons (l : List UInt8) (labels : List (List UInt8)) :
    textSize (l :: labels) = l.length + 1 + textSize labels := List.sum_cons

-- The loop reads just the names that follow few pointers and leave room behind their last dot.
theorem decodeLoop_reads (hlen : m.length < 65536) (ho : outMax < 65536) (fuel : Nat) :
    ∀ (pos outPos jumps : Nat) (endPos : Option Nat) (s : Bufs), outPos < outMax → jumps ≤ 10 →
      turns m.length jumps pos ≤ fuel → Holding m s →
      Ends (decodeLoop m.length outMax fuel pos outPos jumps endPos) s (fun r s' => Holding m s' ∧
        ∀ e, r = some e ↔ ∃ j labels next, m.NameAt pos j labels next ∧ jumps + j ≤ 10 ∧
          outPos + textSize labels < outMax ∧ e = endPos.getD next) := by
  induction fuel with
  | zero =>
    intro pos outPos jumps endPos s _ _ hfuel _
    exact absurd hfuel (by unfold turns; omega)
  | succ fuel ih =>
    intro pos outPos jumps endPos s hout hjumps hfuel hs
    rw [decodeLoop]
    split
    swap
    · next hpos =>
      refine Runs.pure ⟨hs, fun e => ⟨fun h => (by cases h), ?_⟩⟩
      rintro ⟨j, labels, next, hname, -⟩
      exact absurd hname.lt hpos
    · next hpos =>
      refine (pktByte_holding hs hpos).then ?_
      rintro len s1 ⟨h1, rfl⟩
      split
      · next h0 =>
        refine (dropDot_holding h1 outPos).then fun outPos' s2 h2 => ?_
        refine Runs.modify_bind (Runs.pure ⟨h2, fun e => ?_⟩)
        constructor
        · intro he
          exact ⟨0, [], _, .root hpos h0, hjumps, hout, (Option.some.inj he).symm⟩
        · rintro ⟨j, labels, next, hname, -, -, rfl⟩
          obtain ⟨-, -, rfl⟩ := (nameAt_root hpos h0).mp hname
          rfl
      · next hne =>
        split
        · next hp =>
          split
          · next hlow =>
            refine Runs.pure ⟨h1, fun e => ⟨fun h => (by cases h), ?_⟩⟩
            rintro ⟨j, labels, next, hname, -⟩
            exact absurd ((nameAt_pointer hp).mp hname).1 (Nat.not_lt.mpr hlow)
          · next hlow =>
            rw [Nat.not_le] at hlow
            refine (pktByte_holding h1 hlow).then ?_
            rintro low s2 ⟨h2, rfl⟩
            split
            · next hj =>
              refine Runs.pure ⟨h2, fun e => ⟨fun h => (by cases h), ?_⟩⟩
              rintro ⟨j, labels, next, hname, hle, -⟩
              obtain ⟨-, j', n', -, rfl, -⟩ := (nameAt_pointer hp).mp hname
              omega
            · next hj =>
              rw [show u16 ((m.byte pos &&& 0x3F).toNat * 256 + (m.byte (pos + 1)).toNat) =
                m.target pos from u16_of_lt (target_small m pos)]
              refine (ih _ _ _ _ s2 hout (by omega) (turns_jump (by omega) hfuel) h2).mono ?_
                (fun _ h => h)
              rintro r s3 ⟨h3, hr⟩
              refine ⟨h3, fun e => (hr e).trans ?_⟩
              constructor
              · rintro ⟨j, labels, next, hname, hle, hsize, rfl⟩
                exact ⟨j + 1, labels, pos + 2, .pointer hlow hp hname, by omega, hsize,
                  by cases endPos <;> rfl⟩
              · rintro ⟨j, labels, next, hname, hle, hsize, rfl⟩
                obtain ⟨-, j', n', hname', rfl, rfl⟩ := (nameAt_pointer hp).mp hname
                exact ⟨j', labels, n', hname', by omega, hsize, by cases endPos <;> rfl⟩
        · next hp =>
          rw [Bool.not_eq_true] at hp
          rw [u16_of_lt (by omega : pos + 1 < 65536)]
          split
          · next hlabel =>
            refine Runs.pure ⟨h1, fun e => ⟨fun h => (by cases h), ?_⟩⟩
            rintro ⟨j, labels, next, hname, -⟩
            exact absurd ((nameAt_label hne hp).mp hname).1 (Nat.not_le.mpr hlabel)
          · next hlabel =>
            rw [Nat.not_lt] at hlabel
            split
            · next hroom =>
              refine Runs.pure ⟨h1, fun e => ⟨fun h => (by cases h), ?_⟩⟩
              rintro ⟨j, labels, next, hname, -, hsize, -⟩
              obtain ⟨-, ls, -, rfl⟩ := (nameAt_label hne hp).mp hname
              rw [textSize_cons, readBytes_length] at hsize
              omega
            · next hroom =>
              rw [u16_of_lt (by omega : outPos + (m.byte pos).toNat < 65536),
                u16_of_lt (by omega : pos + 1 + (m.byte pos).toNat < 65536),
                u16_of_lt (by omega : outPos + (m.byte pos).toNat + 1 < 65536)]
              have hread : Ends (pktBytes (pos + 1) (m.byte pos).toNat) s1
                (fun _ s' => Holding m s') := h1
              refine hread.then fun label s2 h2 => ?_
              refine (putOut_holding h2 _ label).then fun _ s3 h3 => ?_
              refine (putOut_holding h3 _ [dot]).then fun _ s4 h4 => ?_
              refine (ih _ _ _ _ s4 (by omega) hjumps (turns_label hpos (by omega) hfuel) h4).mono
                ?_ (fun _ h => h)
              rintro r s5 ⟨h5, hr⟩
              refine ⟨h5, fun e => (hr e).trans ?_⟩
              constructor
              · rintro ⟨j, labels, next, hname, hle, hsize, rfl⟩
                refine ⟨j, _, next, .label hne hp hlabel hname, hle, ?_, rfl⟩
                rw [textSize_cons, readBytes_length]
                omega
              · rintro ⟨j, labels, next, hname, hle, hsize, rfl⟩
                obtain ⟨-, ls, hname', rfl⟩ := (nameAt_label hne hp).mp hname
                rw [textSize_cons, readBytes_length] at hsize
                exact ⟨j, ls, next, hname', hle, by omega, rfl⟩

theorem decodeName_reads (hlen : m.length ≤ 512) {fuel : Nat} (hfuel : maxTurns m.length ≤ fuel)
    (hs : Holding m s) : Ends (decodeName fuel m.length off (dnsMaxName + 1)) s (fun r s' =>
      Holding m s' ∧
        ∀ e, r = some e ↔ ∃ j labels, m.NameAt off j labels e ∧ Readable j labels) := by
  refine (decodeLoop_reads (by omega) (by decide) fuel off 0 0 none s (by decide) (by decide)
    ((turns_le m.length off).trans hfuel) hs).mono ?_ (fun _ h => h)
  rintro r s1 ⟨h1, hr⟩
  refine ⟨h1, fun e => (hr e).trans ?_⟩
  constructor
  · rintro ⟨j, labels, next, hname, hj, hsize, rfl⟩
    exact ⟨j, labels, hname, by omega, by omega⟩
  · rintro ⟨j, labels, hname, hj, hsize⟩
    exact ⟨j, labels, e, hname, by omega, by omega, rfl⟩

end Decode

section Scan

open Message

variable {m : Message} {s : Bufs} {off fuel : Nat} {r : Record}
  {ok : Nat → List (List UInt8) → Prop} {passed : Record → Prop}

theorem recordAfter_zero : ¬m.RecordAfter ok passed 0 off r :=
  fun ⟨_, hn, _⟩ => Nat.not_lt_zero _ hn

theorem recordAfter_succ {left : Nat} : m.RecordAfter ok passed (left + 1) off r ↔
    m.RecordAt ok off r ∨ ∃ mid, m.AfterRecord ok passed off mid ∧
      m.RecordAfter ok passed left mid r := by
  constructor
  · rintro ⟨n, hn, p, hwalk, hr⟩
    cases n with
    | zero => exact .inl (hwalk ▸ hr)
    | succ n =>
      obtain ⟨mid, hstep, hwalk⟩ := hwalk
      exact .inr ⟨mid, hstep, n, by omega, p, hwalk, hr⟩
  · rintro (hr | ⟨mid, hstep, n, hn, p, hwalk, hr⟩)
    · exact ⟨0, by omega, off, rfl, hr⟩
    · exact ⟨n + 1, by omega, p, ⟨mid, hstep, hwalk⟩, hr⟩

theorem skipQuestions_reads (hlen : m.length ≤ 512) (hfuel : maxTurns m.length ≤ fuel)
    (left : Nat) :
    ∀ (off : Nat) (s : Bufs), Holding m s →
      Ends (skipQuestions fuel m.length left off) s (fun r s' => Holding m s' ∧
        ∀ e, r = some e ↔ Walk (m.AfterQuestion Readable) left off e) := by
  induction left with
  | zero => exact fun off s hs => Runs.pure ⟨hs, fun e => ⟨fun h => (Option.some.inj h).symm,
      fun h => congrArg some h.symm⟩⟩
  | succ left ih =>
    intro off s hs
    refine (decodeName_reads hlen hfuel hs).then ?_
    rintro next s1 ⟨h1, hnext⟩
    cases next with
    | none =>
      refine Runs.pure ⟨h1, fun e => ⟨fun h => (by cases h), ?_⟩⟩
      rintro ⟨mid, ⟨j, labels, p, hname, hok, -⟩, -⟩
      cases (hnext p).mpr ⟨j, labels, hname, hok⟩
    | some next =>
      obtain ⟨j, labels, hname, hok⟩ := (hnext next).mp rfl
      have hle := hname.next_le
      have hone : ∀ mid, m.AfterQuestion Readable off mid ↔ mid = next + 4 ∧ mid ≤ m.length := by
        intro mid
        constructor
        · rintro ⟨j', labels', p, hname', hok', rfl, hmid⟩
          obtain rfl := Option.some.inj ((hnext p).mpr ⟨j', labels', hname', hok'⟩)
          exact ⟨rfl, hmid⟩
        · rintro ⟨rfl, hmid⟩
          exact ⟨j, labels, next, hname, hok, rfl, hmid⟩
      dsimp only
      rw [u16_of_lt (by omega : next < 65536), u16_of_lt (by omega : next + 4 < 65536)]
      split
      · next hover =>
        refine Runs.pure ⟨h1, fun e => ⟨fun h => (by cases h), ?_⟩⟩
        rintro ⟨mid, hmid, -⟩
        obtain ⟨rfl, hmid⟩ := (hone mid).mp hmid
        omega
      · next hin =>
        refine (ih _ s1 h1).mono ?_ (fun _ h => h)
        rintro r s2 ⟨h2, hr⟩
        refine ⟨h2, fun e => (hr e).trans ⟨fun h => ⟨_, (hone _).mpr ⟨rfl, by omega⟩, h⟩, ?_⟩⟩
        rintro ⟨mid, hmid, hwalk⟩
        obtain ⟨rfl, -⟩ := (hone mid).mp hmid
        exact hwalk

-- What scan_answers gives back is the address of the record that it stops at, if it does.
def Picks (m : Message) (found : Record → Prop) (ip : Nat) : Prop :=
  (∀ r, found r → ip = m.address r) ∧ (ip ≠ 0 → ∃ r, found r)

theorem scanAnswers_picks (hlen : m.length ≤ 512) (hfuel : maxTurns m.length ≤ fuel) (left : Nat) :
    ∀ (off : Nat) (s : Bufs), Holding m s →
      Ends (scanAnswers fuel m.length left off) s (fun ip _ => Picks m (fun r =>
        m.RecordAfter Readable (fun r => ¬m.HoldsAddress r) left off r ∧ m.HoldsAddress r) ip) := by
  induction left with
  | zero => exact fun off s hs => Runs.pure ⟨fun r hr => absurd hr.1 recordAfter_zero,
      fun h => absurd rfl h⟩
  | succ left ih =>
    intro off s hs
    have hnone : (∀ r, ¬m.RecordAt Readable off r) → Picks m (fun r =>
        m.RecordAfter Readable (fun r => ¬m.HoldsAddress r) (left + 1) off r ∧
          m.HoldsAddress r) 0 := by
      refine fun hno => ⟨fun r hr => ?_, fun h => absurd rfl h⟩
      rcases recordAfter_succ.mp hr.1 with hr | ⟨mid, ⟨r', hr', -⟩, -⟩
      · exact absurd hr (hno r)
      · exact absurd hr' (hno r')
    rw [scanAnswers]
    split
    · next hover =>
      refine Runs.pure (hnone ?_)
      rintro r ⟨⟨_, hname, _⟩, _⟩
      exact Nat.not_lt.mpr hover hname.lt
    refine (decodeName_reads hlen hfuel hs).then ?_
    rintro next s1 ⟨h1, hnext⟩
    cases next with
    | none =>
      refine Runs.pure (hnone ?_)
      rintro r ⟨⟨j, hname, hok⟩, -⟩
      cases (hnext _).mpr ⟨j, _, hname, hok⟩
    | some next =>
      obtain ⟨j, labels, hname, hok⟩ := (hnext next).mp rfl
      have hle := hname.next_le
      have hfields : ∀ r, m.RecordAt Readable off r → r.fields = next := by
        rintro r ⟨⟨j', hname', hok'⟩, -⟩
        exact (Option.some.inj ((hnext _).mpr ⟨j', _, hname', hok'⟩)).symm
      dsimp only
      rw [u16_of_lt (by omega : next < 65536)]
      split
      · next hshort =>
        refine Runs.pure (hnone fun r hr => ?_)
        have hend := hr.2
        unfold recordEnd rdata at hend
        rw [hfields r hr] at hend
        omega
      · next hin =>
        refine (pktShort_holding h1 (by omega)).then ?_
        rintro rtype s2 ⟨h2, rfl⟩
        refine (pktWord_holding h2 (by omega)).then ?_
        rintro _ s3 ⟨h3, -⟩
        refine (pktShort_holding h3 (by omega)).then ?_
        rintro rdlen s4 ⟨h4, rfl⟩
        rw [u16_of_lt (by omega : next + 10 < 65536)]
        split
        · next hover =>
          refine Runs.pure (hnone fun r hr => ?_)
          have hend := hr.2
          unfold recordEnd rdata rdlen at hend
          rw [hfields r hr] at hend
          omega
        · next hend =>
          rw [u16_of_lt (by omega : next + 10 + m.short (next + 8) < 65536)]
          have hat : m.RecordAt Readable off ⟨labels, next⟩ :=
            ⟨⟨j, hname, hok⟩, Nat.not_lt.mp hend⟩
          split
          · next hholds =>
            refine (pktWord_holding h4 (by omega)).then ?_
            rintro ip s5 ⟨-, rfl⟩
            refine Runs.pure ⟨fun r hr => ?_, fun _ => ⟨_, recordAfter_succ.mpr (.inl hat), hholds⟩⟩
            rcases recordAfter_succ.mp hr.1 with hr | ⟨mid, ⟨r', hr', hno, -⟩, -⟩
            · unfold address rdata
              rw [hfields r hr]
            · refine absurd ?_ hno
              unfold HoldsAddress rtype rdlen
              rw [hfields r' hr']
              exact hholds
          · next hholds =>
            refine (ih _ s4 h4).mono ?_ (fun _ h => h)
            rintro ip s5 ⟨hall, hex⟩
            refine ⟨fun r hr => ?_, fun hne => ?_⟩
            · rcases recordAfter_succ.mp hr.1 with hr' | ⟨mid, ⟨r', hr', -, rfl⟩, hrest⟩
              · refine absurd ?_ hholds
                have hh := hr.2
                unfold HoldsAddress rtype rdlen at hh
                rwa [hfields r hr'] at hh
              · refine hall r ⟨?_, hr.2⟩
                unfold recordEnd rdata rdlen at hrest
                rwa [hfields r' hr'] at hrest
            · obtain ⟨r, hr, hh⟩ := hex hne
              exact ⟨r, recordAfter_succ.mpr (.inr ⟨_, ⟨_, hat, hholds, rfl⟩, hr⟩), hh⟩

theorem parseResponse_picks (hlen : m.length ≤ 512) (hfuel : maxTurns m.length ≤ fuel)
    (hhead : headerSize ≤ m.length) (hs : Holding m s) :
    Ends (parseResponse fuel m.length) s (fun ip _ => Picks m m.FirstAddress ip) := by
  have hnone : (∀ r, ¬m.FirstAddress r) → Picks m m.FirstAddress 0 := fun hno =>
    ⟨fun r hr => absurd hr (hno r), fun h => absurd rfl h⟩
  unfold parseResponse
  rw [if_neg (Nat.not_lt.mpr hhead)]
  unfold headerSize at hhead
  refine (pktShort_holding hs (by omega)).then ?_
  rintro flags s1 ⟨h1, rfl⟩
  refine (pktShort_holding h1 (by omega)).then ?_
  rintro ancount s2 ⟨h2, rfl⟩
  refine (pktShort_holding h2 (by omega)).then ?_
  rintro qdcount s3 ⟨h3, rfl⟩
  split
  · next hcode => exact Runs.pure (hnone fun r hr => hcode hr.1)
  next hcode =>
  rw [ne_eq, not_not] at hcode
  split
  · next hno =>
    refine Runs.pure (hnone fun r hr => ?_)
    obtain ⟨-, ⟨p, -, hafter⟩, -⟩ := hr
    rw [hno] at hafter
    exact recordAfter_zero hafter
  refine (skipQuestions_reads hlen hfuel _ headerSize s3 h3).then ?_
  rintro start s4 ⟨h4, hstart⟩
  cases start with
  | none =>
    refine Runs.pure (hnone fun r hr => ?_)
    obtain ⟨-, ⟨p, hwalk, -⟩, -⟩ := hr
    cases (hstart p).mpr hwalk
  | some start =>
    refine (scanAnswers_picks hlen hfuel _ start s4 h4).mono ?_ (fun _ h => h)
    rintro ip s5 ⟨hall, hex⟩
    refine ⟨fun r hr => ?_, fun hne => ?_⟩
    · obtain ⟨-, ⟨p, hwalk, hafter⟩, hholds⟩ := hr
      obtain rfl := Option.some.inj ((hstart p).mpr hwalk)
      exact hall r ⟨hafter, hholds⟩
    · obtain ⟨r, hafter, hholds⟩ := hex hne
      exact ⟨r, hcode, ⟨start, (hstart start).mp rfl, hafter⟩, hholds⟩

end Scan

section Reply

open Message

variable {w : Surroundings} {hostname : List UInt8} {s : Resolver} {d : Datagram}

def messageOf (data : List UInt8) : Message where
  byte i := data.getD i 0
  length := data.length

-- The checks of dns_udp_callback while it waits for the answer to a query.
def Accepted (server qid : Nat) (d : Datagram) : Bool :=
  d.srcIp = server && headerSize ≤ d.data.length && d.data.length ≤ 512 && be16 d.data 0 = qid &&
    be16 d.data 2 &&& dnsFlagQr ≠ 0

-- The reply that a call takes its answer from.
def replyTo (w : Surroundings) (s : Resolver) : Option Datagram :=
  (List.range dnsMaxRetries).findSome? fun attempt =>
    (w.arrivals attempt).find? (Accepted s.dnsServer s.nextId)

theorem dnsUdpCallback_deaf (h : s.waiting = false) (d : Datagram) : dnsUdpCallback s d = s := by
  unfold dnsUdpCallback
  rw [h]
  simp

theorem arrivals_deaf (h : s.waiting = false) (ds : List Datagram) :
    ds.foldl dnsUdpCallback s = s := by
  induction ds with
  | nil => rfl
  | cons d ds ih => rw [List.foldl_cons, dnsUdpCallback_deaf h, ih]

theorem dnsUdpCallback_waiting (h : s.waiting = true) (d : Datagram) :
    dnsUdpCallback s d = if Accepted s.dnsServer s.waitId d then
      { s with
        respBuf := writeBytes s.respBuf 0 d.data
        respLen := d.data.length
        waiting := false }
    else s := by
  unfold dnsUdpCallback Accepted
  rw [h]
  grind

theorem arrivals_waiting (h : s.waiting = true) (ds : List Datagram) :
    ds.foldl dnsUdpCallback s = match ds.find? (Accepted s.dnsServer s.waitId) with
      | some d =>
        { s with
          respBuf := writeBytes s.respBuf 0 d.data
          respLen := d.data.length
          waiting := false }
      | none => s := by
  induction ds with
  | nil => rfl
  | cons d ds ih =>
    rw [List.foldl_cons, dnsUdpCallback_waiting h, List.find?_cons]
    split
    · next hd => rw [arrivals_deaf rfl, hd]
    · next hd =>
      rw [Bool.not_eq_true] at hd
      rw [ih, hd]

theorem accepted_length {server qid : Nat} (h : Accepted server qid d = true) :
    headerSize ≤ d.data.length ∧ d.data.length ≤ 512 := by
  simp only [Accepted, Bool.and_eq_true, decide_eq_true_eq] at h
  exact ⟨h.1.1.1.2, h.1.1.2⟩

theorem parsed_picks (hhead : headerSize ≤ d.data.length) (hlen : d.data.length ≤ 512)
    (hlength : s.respLen = d.data.length)
    (hbuf : ∀ i < d.data.length, s.respBuf i = d.data.getD i 0) :
    Picks (messageOf d.data) (messageOf d.data).FirstAddress (parsed s) := by
  have hturns : maxTurns (messageOf d.data).length ≤ maxTurns 512 :=
    Nat.mul_le_mul_left _ (Nat.succ_le_succ hlen)
  have hs : Holding (messageOf d.data) (fresh s.respBuf (fun _ => 0)) := hbuf
  obtain ⟨ip, b, hrun, hpicks⟩ := (parseResponse_picks (m := messageOf d.data) hlen hturns hhead
    hs).ends
  have hparsed : parsed s = ip := by
    unfold parsed
    rw [hlength]
    change (parseResponse (maxTurns 512) (messageOf d.data).length _).1.getD 0 = ip
    rw [hrun]
    rfl
  rwa [hparsed]

theorem attempts_picks {server qid : Nat} {query : List UInt8} {turns : List Nat}
    (hserver : s.dnsServer = server) (hreply : (turns.findSome? fun attempt =>
      (w.arrivals attempt).find? (Accepted server qid)) = some d) :
    Picks (messageOf d.data) (messageOf d.data).FirstAddress (attempts w qid query turns s).1 := by
  induction turns generalizing s with
  | nil => cases hreply
  | cons attempt turns ih =>
    have hask : (ask qid attempt query s).waiting = true := rfl
    have hfold := arrivals_waiting hask (w.arrivals attempt)
    have hserver' : (ask qid attempt query s).dnsServer = server := hserver
    have hid : (ask qid attempt query s).waitId = qid := rfl
    rw [hserver', hid] at hfold
    rw [List.findSome?_cons] at hreply
    rw [attempts]
    split at hreply
    · next d' hfind =>
      obtain rfl := Option.some.inj hreply
      obtain ⟨hhead, hlen⟩ := accepted_length (List.find?_some hfind)
      have hpos : 0 < d'.data.length := Nat.lt_of_lt_of_le (by decide) hhead
      rw [hfind] at hfold
      rw [hfold]
      dsimp only
      rw [if_pos (by simpa using hpos)]
      refine parsed_picks hhead hlen rfl fun i hi => (writeBytes_eq _ 0 d'.data i).trans ?_
      rw [if_pos ⟨Nat.zero_le _, by omega⟩, Nat.sub_zero]
    · next hfind =>
      rw [hfind] at hfold
      rw [hfold]
      exact ih hserver' hreply

theorem dnsResolve_picks (hne : hostname ≠ []) (hlit : looksLikeIp hostname = false)
    (hmiss : (cacheLookup w.lookupMs hostname s.cache).1 = none) (hserver : s.dnsServer ≠ 0)
    (hreply : replyTo w s = some d) :
    Picks (messageOf d.data) (messageOf d.data).FirstAddress (dnsResolve w hostname s).1 := by
  unfold dnsResolve
  rw [if_neg hne, hlit]
  simp only [Bool.false_eq_true, if_false, hmiss, if_neg hserver]
  have hpicks : Picks (messageOf d.data) (messageOf d.data).FirstAddress
      (attempts w s.nextId (queryBytes s.nextId hostname) (List.range dnsMaxRetries)
        { s with
          cache := (cacheLookup w.lookupMs hostname s.cache).2
          nextId := u16 (s.nextId + 1) }).1 := attempts_picks rfl hreply
  split
  · next hz => rwa [hz] at hpicks
  · exact hpicks

end Reply

-- The property holds of a reply if and only if its first address record does not mislead.
theorem resolved_address_answers_iff {w : Surroundings} {hostname : List UInt8} {s : Resolver}
    {d : Datagram} (hne : hostname ≠ []) (hlit : looksLikeIp hostname = false)
    (hmiss : (cacheLookup w.lookupMs hostname s.cache).1 = none) (hserver : s.dnsServer ≠ 0)
    (hreply : replyTo w s = some d) :
    ((dnsResolve w hostname s).1 ≠ 0 →
      AnswerFor (messageOf d.data) hostname (dnsResolve w hostname s).1) ↔
    ∀ r, (messageOf d.data).FirstAddress r → (messageOf d.data).address r = 0 ∨
      AnswerFor (messageOf d.data) hostname ((messageOf d.data).address r) := by
  obtain ⟨hall, hex⟩ := dnsResolve_picks hne hlit hmiss hserver hreply
  constructor
  · intro h r hr
    rw [← hall r hr]
    exact or_iff_not_imp_left.mpr h
  · intro h hne
    obtain ⟨r, hr⟩ := hex hne
    rw [hall r hr] at hne ⊢
    exact (h r hr).resolve_left hne

-- A reply with the address 9.9.9.9 for the name that is the one letter c.
def oneAnswer (c : UInt8) : List UInt8 :=
  [0x13, 0x37, 0x81, 0x80, 0, 0, 0, 1, 0, 0, 0, 0] ++
    [1, c, 0, 0, 1, 0, 1, 0, 0, 0, 60, 0, 4, 9, 9, 9, 9]

def oneReply (c : UInt8) : Datagram where
  srcIp := 1
  srcPort := 53
  dstPort := 54
  data := oneAnswer c

def answering (c : UInt8) : Surroundings where
  lookupMs := 0
  storeMs := 0
  arrivals := fun _ => [oneReply c]

section OneAnswer

variable {c : UInt8} {r : Record} {ok : Nat → List (List UInt8) → Prop} {passed : Record → Prop}

theorem oneAnswer_counts : (messageOf (oneAnswer c)).short 4 = 0 ∧
    (messageOf (oneAnswer c)).short 6 = 1 ∧ (messageOf (oneAnswer c)).short 23 = 4 := by
  simp [Message.short, messageOf, oneAnswer]

theorem answering_reply : replyTo (answering c) coldResolver = some (oneReply c) := by
  simp [replyTo, dnsMaxRetries, answering, Accepted, oneReply, oneAnswer, coldResolver, headerSize,
    be16, dnsFlagQr, List.range_succ]

theorem oneAnswer_bytes : (messageOf (oneAnswer c)).length = 29 ∧
    (messageOf (oneAnswer c)).byte 12 = 1 ∧ (messageOf (oneAnswer c)).byte 14 = 0 := ⟨rfl, rfl, rfl⟩

theorem oneAnswer_name {jumps next : Nat} {labels : List (List UInt8)}
    (h : (messageOf (oneAnswer c)).NameAt 12 jumps labels next) : labels = [[c]] ∧ next = 15 := by
  obtain ⟨hlen, hone, hzero⟩ := oneAnswer_bytes (c := c)
  obtain ⟨-, ls, hrest, rfl⟩ := (nameAt_label (by rw [hone]; decide) (by rw [hone]; decide)).mp h
  obtain ⟨-, rfl, rfl⟩ := (nameAt_root (by rw [hlen]; decide) hzero).mp hrest
  exact ⟨rfl, rfl⟩

theorem single_record {m : Message} (hquestions : m.short 4 = 0) (hanswers : m.short 6 = 1)
    (h : m.InSection ok passed r) : m.RecordAt ok headerSize r := by
  obtain ⟨off, hoff, n, hn, p, hwalk, hr⟩ := h
  rw [hquestions] at hoff
  rw [hanswers, Nat.lt_one_iff] at hn
  rw [hn] at hwalk
  have hp : p = headerSize := hwalk.trans hoff
  rwa [hp] at hr

theorem oneAnswer_record (h : (messageOf (oneAnswer c)).InSection ok passed r) :
    r = ⟨[[c]], 15⟩ := by
  obtain ⟨⟨jumps, hname, -⟩, -⟩ := single_record oneAnswer_counts.1 oneAnswer_counts.2.1 h
  obtain ⟨howner, hfields⟩ := oneAnswer_name hname
  rw [← howner, ← hfields]

theorem oneAnswer_inAnswers : (messageOf (oneAnswer c)).InAnswers ⟨[[c]], 15⟩ := by
  refine ⟨12, ?_, 0, ?_, 12, rfl, ⟨0, ?_, ?_⟩, ?_⟩
  · rw [oneAnswer_counts.1]
    rfl
  · rw [oneAnswer_counts.2.1]
    decide
  · obtain ⟨hlen, hone, hzero⟩ := oneAnswer_bytes (c := c)
    exact (nameAt_label (by rw [hone]; decide) (by rw [hone]; decide)).mpr
      ⟨by rw [hlen, hone]; decide, [], (nameAt_root (by rw [hlen]; decide) hzero).mpr
        ⟨rfl, rfl, rfl⟩, rfl⟩
  · intro l hl
    rw [List.mem_singleton.mp hl, List.length_singleton]
    decide
  · change 25 + (messageOf (oneAnswer c)).short 23 ≤ 29
    rw [oneAnswer_counts.2.2]

end OneAnswer

theorem resolved_address_answers_one :
    AnswerFor (messageOf (oneAnswer 97)) [97] (dnsResolve (answering 97) [97] coldResolver).1 := by
  refine (resolved_address_answers_iff (by decide) (by decide) (by decide) (by decide)
    answering_reply).mpr ?_ (by decide +kernel)
  rintro r ⟨-, hr, hholds⟩
  obtain rfl := oneAnswer_record hr
  exact .inr ⟨_, [[97]], oneAnswer_inAnswers, rfl, hholds, .queried (.inl rfl), rfl, rfl⟩

theorem foreign_address_resolved : ¬∀ (w : Surroundings) (hostname : List UInt8) (s : Resolver)
    (d : Datagram), hostname ≠ [] → looksLikeIp hostname = false →
    (cacheLookup w.lookupMs hostname s.cache).1 = none → s.dnsServer ≠ 0 →
    replyTo w s = some d → (dnsResolve w hostname s).1 ≠ 0 →
    AnswerFor (messageOf d.data) hostname (dnsResolve w hostname s).1 := by
  intro h
  obtain ⟨r, name, hr, -, -, hname, hsame, -⟩ := h (answering 120) [97] coldResolver
    (oneReply 120) (by decide) (by decide) (by decide) (by decide) answering_reply
    (by decide +kernel)
  obtain rfl := oneAnswer_record hr
  cases hname with
  | queried hw =>
    cases name with
    | nil => cases hsame
    | cons l ls =>
      obtain ⟨hl, hls⟩ := List.cons_eq_cons.mp hsame
      obtain rfl := List.map_eq_nil_iff.mp hls.symm
      rw [Writes, join_singleton] at hw
      rcases hw with rfl | hw
      · exact absurd hl (by decide)
      · exact absurd (congrArg (List.getLast? ·) hw) (by simp [dot])
  | followed _ hr' hcname =>
    obtain rfl := oneAnswer_record hr'
    exact absurd hcname (by decide)

end Dns
