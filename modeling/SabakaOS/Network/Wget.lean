import Mathlib.Data.List.TakeWhile
import SabakaOS.Network.TcpStream

namespace Wget

open Tcp Word

section Model

def rbuf : Nat := 512

-- The locals of the receive loop, and what it has printed.
structure Page where
  inBody : Bool
  bodyBytes : Nat
  window : List UInt8
  winFill : Nat
  printed : List UInt8

def noPage : Page := ⟨false, 0, [0, 0, 0, 0], 0, []⟩

-- terminal_puts stops at a zero, at the latest at that of buf[n].
def Page.puts (p : Page) (l : List UInt8) : Page :=
  { p with printed := p.printed ++ l.takeWhile (· ≠ 0) }

def Page.count (p : Page) (n : Nat) : Page := { p with bodyBytes := u32 (p.bodyBytes + n) }

def endOfHeader : List UInt8 := [13, 10, 13, 10]

def Page.shift (p : Page) (c : UInt8) : Page :=
  { p with window := p.window.tail ++ [c], winFill := u32 (p.winFill + 1) }

-- The for loop over what is left of the buffer.
def Page.scan (p : Page) : List UInt8 → Page
  | [] => p
  | c :: l =>
    let p := p.shift c
    if 4 ≤ p.winFill ∧ p.window = endOfHeader then
      let p := { p with inBody := true }
      if 0 < l.length then (p.puts l).count l.length else p
    else p.scan l

def Page.take (p : Page) (l : List UInt8) : Page :=
  if p.inBody then (p.puts l).count l.length else p.scan l

def tcpState (t : TcpStack) (i : Fin 8) : TcpState :=
  if !(t.socks i).used then .closed else (t.socks i).state

-- The call that comes next; at wait, tcp_recv_wait has still to call tcp_recv.
inductive Next where
  | wait
  | look
  | again
  | after
  | ended
  deriving DecidableEq, Repr

structure Loop where
  net : State
  next : Next
  page : Page

def Loop.receive (w : Loop) (i : Fin 8) (empty : Next) : Loop :=
  let r := tcpRecv w.net.tcp i rbuf
  let net := exec i w.net (.recv i rbuf)
  if 0 < r.1 then ⟨net, .after, w.page.take r.2.1⟩ else ⟨net, empty, w.page⟩

def Loop.turn (w : Loop) (i : Fin 8) : Loop :=
  match w.next with
  | .wait => w.receive i .look
  | .look =>
    if tcpState w.net.tcp i ∈ [.closeWait, .lastAck, .closed, .timeWait] then
      { w with next := .again }
    else { w with next := .wait }
  | .again => w.receive i .ended
  | .after =>
    if tcpState w.net.tcp i ∈ [.closed, .timeWait] then { w with next := .ended }
    else { w with next := .wait }
  | .ended => w

inductive Step where
  | irq (e : Irq)
  | turn

-- Interrupts come between any two calls, and while tcp_recv_wait waits.
def Loop.step (w : Loop) (i : Fin 8) : Step → Loop
  | .irq e => { w with net := exec i w.net (.irq e) }
  | .turn => w.turn i

def receiving (irs : Nat) (i : Fin 8) : System Loop Step where
  init w := (connection irs i).init w.net ∧ w.next = .wait ∧ w.page = noPage
  step w a w' := w' = w.step i a

def answered (irs : Nat) (S : List UInt8) (i : Fin 8) (w : Loop) : Step → Prop
  | .irq e => fromPeer irs S i w.net (.irq e)
  | .turn => True

-- The first end of a header in what follows head is the one right after it.
def Header (head : List UInt8) : Prop := ¬endOfHeader <:+: head ++ [13, 10, 13]

-- The page that is printed is the body, as far as it has been taken from the socket.
structure Prints (head body : List UInt8) (w : Loop) : Prop where
  taken : w.net.got <+: head ++ endOfHeader ++ body
  inBody : w.page.inBody = true ↔ head.length + 4 ≤ w.net.got.length
  count : w.page.bodyBytes = w.net.got.length - (head.length + 4)
  printed : 0 ∉ body → w.page.printed = body.take w.page.bodyBytes

end Model

section Scanning

variable {p : Page} {l r head body : List UInt8}

structure Searching (l : List UInt8) (p : Page) : Prop where
  noEnd : ¬endOfHeader <:+: l
  inBody : p.inBody = false
  count : p.bodyBytes = 0
  printed : p.printed = []
  winFill : p.winFill = l.length
  window : p.window = ([0, 0, 0, 0] ++ l).drop l.length

structure Found (head body : List UInt8) (p : Page) : Prop where
  header : Header head
  inBody : p.inBody = true
  count : p.bodyBytes = body.length
  printed : 0 ∉ body → p.printed = body

-- The page after the bytes l.
inductive Seen (l : List UInt8) (p : Page) : Prop
  | searching : Searching l p → Seen l p
  | found (head body : List UInt8) :
    l = head ++ endOfHeader ++ body → Found head body p → Seen l p

theorem searching_noPage : Searching [] noPage where
  noEnd := by decide
  inBody := rfl
  count := rfl
  printed := rfl
  winFill := rfl
  window := rfl

theorem window_iff : 4 ≤ l.length ∧ ([0, 0, 0, 0] ++ l).drop l.length = endOfHeader ↔
    endOfHeader <:+ l := by
  have hdrop (h : 4 ≤ l.length) :
      ([0, 0, 0, 0] ++ l).drop l.length = l.drop (l.length - endOfHeader.length) := by
    rw [List.drop_append, List.drop_eq_nil_of_le h]
    rfl
  constructor
  · rintro ⟨h, hw⟩
    rw [List.suffix_iff_eq_drop, ← hdrop h, hw]
  · intro h
    have hlen : 4 ≤ l.length := h.length_le
    exact ⟨hlen, (hdrop hlen).trans (List.suffix_iff_eq_drop.mp h).symm⟩

theorem puts_printed (h : 0 ∉ l) : (p.puts l).printed = p.printed ++ l := by
  have hall : ∀ c ∈ l, decide (c ≠ 0) = true := fun c hc =>
    decide_eq_true (ne_of_mem_of_not_mem hc h)
  rw [Page.puts, List.takeWhile_eq_self_iff.mpr hall]

theorem shift_window {c : UInt8} (h : Searching l p) :
    (p.shift c).window = ([0, 0, 0, 0] ++ (l ++ [c])).drop (l ++ [c]).length := by
  have hle : l.length + 1 ≤ ([0, 0, 0, 0] ++ l).length := by simp
  rw [Page.shift, h.window, List.tail_drop, ← List.append_assoc, List.length_append]
  exact (List.drop_append_of_le_length hle).symm

theorem shift_winFill {c : UInt8} (h : Searching l p) (hlt : l.length + 1 < 2 ^ 32) :
    (p.shift c).winFill = (l ++ [c]).length := by
  rw [Page.shift, h.winFill, List.length_append]
  exact u32_of_lt hlt

theorem Searching.shift {c : UInt8} (h : Searching l p) (hlt : l.length + 1 < 2 ^ 32)
    (hc : ¬endOfHeader <:+ l ++ [c]) : Searching (l ++ [c]) (p.shift c) where
  noEnd := fun hi => (List.infix_concat_iff.mp hi).elim hc h.noEnd
  inBody := h.inBody
  count := h.count
  printed := h.printed
  winFill := shift_winFill h hlt
  window := shift_window h

theorem Searching.ended {c : UInt8} (h : Searching l p) (hlt : (l ++ c :: r).length < 2 ^ 32)
    {head : List UInt8} (hc : head ++ endOfHeader = l ++ [c]) {q : Page}
    (hq : q = { p.shift c with inBody := true }) :
    Found head r (if 0 < r.length then (q.puts r).count r.length else q) := by
  have hsnoc : head ++ [13, 10, 13] ++ [10] = l ++ [c] := by
    rw [← hc, endOfHeader, List.append_assoc]
    rfl
  obtain ⟨hl, -⟩ := List.append_inj' hsnoc rfl
  have hcount : q.bodyBytes = 0 := by
    rw [hq]
    exact h.count
  have hprinted : q.printed = [] := by
    rw [hq]
    exact h.printed
  have hopen : q.inBody = true := by rw [hq]
  have hlen : r.length < 2 ^ 32 := by
    rw [List.length_append, List.length_cons] at hlt
    omega
  have hheader : Header head := fun hi => h.noEnd (hl ▸ hi)
  split
  · refine ⟨hheader, hopen, ?_, fun h0 => ?_⟩
    · change u32 (q.bodyBytes + r.length) = _
      rw [hcount, Nat.zero_add, u32_of_lt hlen]
    · change (q.puts r).printed = r
      rw [puts_printed h0, hprinted, List.nil_append]
  · rename_i hnone
    obtain rfl := List.eq_nil_of_length_eq_zero (Nat.eq_zero_of_not_pos hnone)
    exact ⟨hheader, hopen, hcount, fun _ => hprinted⟩

-- Induction on what is left of the buffer; l is what has come before it.
theorem Searching.scan (h : Searching l p) (hlt : (l ++ r).length < 2 ^ 32) :
    Seen (l ++ r) (p.scan r) := by
  induction r generalizing l p with
  | nil =>
    rw [List.append_nil]
    exact .searching h
  | cons c r ih =>
    have hone : l.length + 1 < 2 ^ 32 := by
      rw [List.length_append, List.length_cons] at hlt
      omega
    have hiff : (4 ≤ (p.shift c).winFill ∧ (p.shift c).window = endOfHeader) ↔
        endOfHeader <:+ l ++ [c] := by
      rw [shift_winFill h hone, shift_window h]
      exact window_iff
    rw [Page.scan]
    by_cases hc : endOfHeader <:+ l ++ [c]
    · rw [if_pos (hiff.mpr hc)]
      obtain ⟨head, hhead⟩ := hc
      refine .found head r ?_ (h.ended hlt hhead rfl)
      rw [hhead, List.append_assoc, List.singleton_append]
    · rw [if_neg (mt hiff.mp hc), List.append_cons]
      exact ih (h.shift hone hc) (by rwa [← List.append_cons])

theorem Found.take (h : Found head body p) (hlt : (body ++ r).length < 2 ^ 32) :
    Found head (body ++ r) (p.take r) := by
  rw [Page.take, if_pos h.inBody]
  refine ⟨h.header, h.inBody, ?_, fun h0 => ?_⟩
  · change u32 (p.bodyBytes + r.length) = _
    rw [h.count, ← List.length_append, u32_of_lt hlt]
  · rw [List.mem_append, not_or] at h0
    change (p.puts r).printed = _
    rw [puts_printed h0.2, h.printed h0.1]

theorem Seen.take (h : Seen l p) (hlt : (l ++ r).length < 2 ^ 32) : Seen (l ++ r) (p.take r) := by
  cases h with
  | searching h =>
    rw [Page.take, h.inBody]
    exact h.scan hlt
  | found head body hl h =>
    refine .found head (body ++ r) (by rw [hl, List.append_assoc]) (h.take ?_)
    rw [hl] at hlt
    simp only [List.length_append] at hlt ⊢
    omega

-- A second header end cannot come before the first.
theorem Header.length_le {head' tail tail' : List UInt8} (h : Header head)
    (heq : head' ++ endOfHeader ++ tail' = head ++ endOfHeader ++ tail) :
    head.length ≤ head'.length := by
  by_contra hlt
  refine h (List.IsInfix.trans ⟨head', [], List.append_nil _⟩ (List.IsPrefix.isInfix ?_))
  have hsplit : head ++ endOfHeader ++ tail = head ++ [13, 10, 13] ++ ([10] ++ tail) := by
    rw [endOfHeader]
    simp
  have hlong : head' ++ endOfHeader <+: head ++ endOfHeader ++ tail := ⟨tail', heq⟩
  refine List.prefix_of_prefix_length_le hlong ⟨[10] ++ tail, hsplit.symm⟩ ?_
  simp only [List.length_append, endOfHeader, List.length_cons, List.length_nil]
  omega

theorem Seen.prints {got : List UInt8} {w : Loop} (h : Seen got w.page) (hg : w.net.got = got)
    (hhead : Header head) (hp : got <+: head ++ endOfHeader ++ body) : Prints head body w := by
  cases h with
  | searching h =>
    have hshort : got.length < head.length + 4 := by
      by_contra hlong
      have hpre : head ++ endOfHeader <+: got := by
        refine List.prefix_of_prefix_length_le ⟨body, rfl⟩ hp ?_
        rw [List.length_append]
        exact Nat.le_of_not_lt hlong
      exact h.noEnd (.trans ⟨head, [], List.append_nil _⟩ hpre.isInfix)
    refine ⟨hg ▸ hp, ?_, ?_, fun _ => ?_⟩
    · rw [h.inBody, hg]
      exact ⟨fun h => Bool.noConfusion h, fun h => absurd h (Nat.not_le_of_lt hshort)⟩
    · rw [h.count, hg]
      omega
    · rw [h.printed, h.count, List.take_zero]
  | found head' body' hgot h =>
    obtain ⟨rest, hrest⟩ := hp
    have heq : head' ++ endOfHeader ++ (body' ++ rest) = head ++ endOfHeader ++ body := by
      rw [← hrest, hgot, List.append_assoc (_ ++ _)]
    have hlen : head'.length = head.length :=
      le_antisymm (h.header.length_le heq.symm) (hhead.length_le heq)
    obtain ⟨hsame, hbody⟩ := List.append_inj heq (by simp [hlen])
    have hcount : got.length = head.length + 4 + body'.length := by
      rw [hgot, List.length_append, List.length_append, hlen]
      rfl
    refine ⟨hg ▸ ⟨rest, hrest⟩, ?_, ?_, fun h0 => ?_⟩
    · rw [h.inBody, hg, hcount]
      exact ⟨fun _ => Nat.le_add_right _ _, fun _ => rfl⟩
    · rw [h.count, hg]
      omega
    · rw [h.printed (fun hm => h0 (hbody ▸ List.mem_append_left _ hm)), h.count, ← hbody,
        List.take_left]

end Scanning

section Receiving

variable {irs : Nat} {S : List UInt8} {i : Fin 8} {w : Loop}

structure Good (irs : Nat) (S : List UInt8) (i : Fin 8) (w : Loop) : Prop where
  feed : Feed irs S w.net.got w.net.fin (w.net.tcp.socks i)
  seen : Seen w.net.got w.page

theorem tcpRecv_none {t : TcpStack} (h : ¬0 < (tcpRecv t i rbuf).1) :
    (tcpRecv t i rbuf).2.1 = [] := by
  unfold tcpRecv at h ⊢
  simp only at h ⊢
  split
  · rfl
  split
  · rfl
  · rename_i hused hlen
    rw [if_neg hused, if_neg hlen] at h
    have hpos : 0 < u16 (if (t.socks i).recvLen < rbuf then (t.socks i).recvLen else rbuf) := by
      unfold rbuf u16
      split <;> omega
    exact absurd (Int.natCast_pos.mpr hpos) h

theorem recv_got (w : Loop) :
    (exec i w.net (.recv i rbuf)).got = w.net.got ++ (tcpRecv w.net.tcp i rbuf).2.1 :=
  if_pos rfl

theorem Good.receive (h : Good irs S i w) (hS : S.length < 2 ^ 32) (empty : Next) :
    Good irs S i (w.receive i empty) := by
  have hf := exec_feed hS h.feed (a := .recv i rbuf) trivial
  have hlen : (exec i w.net (.recv i rbuf)).got.length < 2 ^ 32 := by
    obtain ⟨n, hn, htake, -⟩ := hf.taken
    have := congrArg List.length htake
    rw [List.length_append, List.length_take] at this
    omega
  unfold Loop.receive
  simp only
  split
  · refine ⟨hf, ?_⟩
    rw [recv_got] at hlen ⊢
    exact h.seen.take hlen
  · rename_i hnone
    refine ⟨hf, ?_⟩
    change Seen (exec i w.net (.recv i rbuf)).got w.page
    rw [recv_got, tcpRecv_none hnone, List.append_nil]
    exact h.seen

theorem Good.turn (h : Good irs S i w) (hS : S.length < 2 ^ 32) : Good irs S i (w.turn i) := by
  unfold Loop.turn
  cases w.next with
  | wait => exact h.receive hS _
  | look =>
    simp only
    split <;> exact ⟨h.feed, h.seen⟩
  | again => exact h.receive hS _
  | after =>
    simp only
    split <;> exact ⟨h.feed, h.seen⟩
  | ended => exact h

def goodInvariant (hS : S.length < 2 ^ 32) :
    ((receiving irs i).restrict (answered irs S i)).Invariant where
  holds w := Good irs S i w
  start := by
    rintro w ⟨hinit, -, hpage⟩
    refine ⟨init_feed hinit, ?_⟩
    rw [hpage, hinit.2.2.2.2.2.2.1]
    exact .searching searching_noPage
  step := by
    rintro w a w' h ⟨ha, rfl⟩
    cases a with
    | irq e => exact ⟨exec_feed hS h.feed ha, h.seen⟩
    | turn => exact h.turn hS

theorem Seen.unprinted {l : List UInt8} {p : Page} (h : Seen l p) (hp : l <+: S)
    (hS : ¬endOfHeader <:+: S) : p.inBody = false ∧ p.bodyBytes = 0 ∧ p.printed = [] := by
  cases h with
  | searching h => exact ⟨h.inBody, h.count, h.printed⟩
  | found head body hl h => exact absurd (.trans ⟨head, body, hl.symm⟩ hp.isInfix) hS

theorem page_printed (hS : S.length < 2 ^ 32)
    (h : ((receiving irs i).restrict (answered irs S i)).Reach w) :
    (∀ head body, S = head ++ endOfHeader ++ body → Header head → Prints head body w) ∧
      (¬endOfHeader <:+: S →
        w.page.inBody = false ∧ w.page.bodyBytes = 0 ∧ w.page.printed = []) := by
  have hg := (goodInvariant hS).reach h
  obtain ⟨n, -, htake, -⟩ := hg.feed.taken
  have hp : w.net.got <+: S := (List.prefix_append _ _).trans (htake ▸ List.take_prefix n S)
  refine ⟨fun head body hsplit hhead => ?_, hg.seen.unprinted hp⟩
  exact hg.seen.prints rfl hhead (hsplit ▸ hp)

-- A response that is nothing but the end of its header and a body of two bytes.
def hiSegment : List UInt8 :=
  [0, 0, 0, 0, 0, 0, 0, 8, 0, 0, 0, 0, 0x50, 0x10, 0, 0, 0, 0, 0, 0] ++ endOfHeader ++ [0x68, 0x69]

def waiting : Loop := ⟨⟨establishedStack 7, [], false⟩, .wait, noPage⟩

def hiLoop : Loop := (waiting.step 0 (.irq (.receive 0 hiSegment))).step 0 .turn

theorem page_printed_hi :
    Prints [] [0x68, 0x69] hiLoop ∧ hiLoop.page.printed = [0x68, 0x69] := by
  have h0 : ((receiving 7 0).restrict (answered 7 (endOfHeader ++ [0x68, 0x69]) 0)).Reach waiting :=
    .start ⟨⟨rfl, rfl, rfl, rfl, rfl, rfl, rfl, rfl⟩, rfl, rfl⟩
  have hslice : sliceOf 7 (endOfHeader ++ [0x68, 0x69]) hiSegment := fun _ =>
    ⟨0, by decide, by decide, by decide⟩
  have h1 := h0.next (a := Step.irq (.receive 0 hiSegment)) ⟨fun _ => hslice, rfl⟩
  have h2 := h1.next (a := Step.turn) ⟨trivial, rfl⟩
  exact ⟨(page_printed (by decide) h2).1 [] [0x68, 0x69] rfl (by unfold Header; decide),
    by decide +kernel⟩

end Receiving

end Wget
