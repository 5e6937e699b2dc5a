import SabakaOS.Network.DnsNames

namespace Dns

open Word ByteMemory Prog Dotted

structure DnsCacheEntry where
  name : List UInt8
  ip : Nat
  ttlDeadlineMs : Nat
  valid : Bool

abbrev Cache := Fin 16 → DnsCacheEntry

structure Datagram where
  srcIp : Nat
  srcPort : Nat
  dstPort : Nat
  data : List UInt8

-- A call of net_udp_send.
structure Query where
  dstIp : Nat
  srcPort : Nat
  dstPort : Nat
  data : List UInt8

structure Resolver where
  dnsServer : Nat
  nextId : Nat
  cache : Cache
  waiting : Bool
  waitId : Nat
  respBuf : Nat → UInt8
  respLen : Nat
  sent : List Query

section Cache

-- The loop over the slots, which drops the entries that have expired on its way.
def cacheScan (now : Nat) (name : List UInt8) : List (Fin 16) → Cache → Option (Fin 16) × Cache
  | [], c => (none, c)
  | i :: slots, c =>
    if !(c i).valid then cacheScan now name slots c
    else if (c i).ttlDeadlineMs ≤ now then
      cacheScan now name slots (Function.update c i { c i with valid := false })
    else if (c i).name = name then (some i, c)
    else cacheScan now name slots c

def cacheLookup (now : Nat) (name : List UInt8) (c : Cache) : Option (Fin 16) × Cache :=
  cacheScan now name (List.finRange 16) c

def pickSlot (c : Cache) : List (Fin 16) → Fin 16 → Nat → Fin 16
  | [], slot, _ => slot
  | i :: slots, slot, oldest =>
    if !(c i).valid then i
    else if (c i).ttlDeadlineMs < oldest then pickSlot c slots i (c i).ttlDeadlineMs
    else pickSlot c slots slot oldest

def cacheStore (now : Nat) (name : List UInt8) (ip ttlSec : Nat) (c : Cache) : Cache :=
  let slot := pickSlot c (List.finRange 16) 0 0xFFFFFFFF
  let ttlSec := if ttlSec < 30 then 30 else ttlSec
  let ttlSec := if 300 < ttlSec then 300 else ttlSec
  Function.update c slot
    { name := name.take dnsMaxName
      ip := ip
      ttlDeadlineMs := u32 (now + u32 (ttlSec * 1000))
      valid := true }

end Cache

section Literal

def literalDots : List UInt8 → Nat → Option Nat
  | [], dots => some dots
  | c :: rest, dots =>
    if c = dot then literalDots rest (dots + 1)
    else if c < 48 ∨ 57 < c then none
    else literalDots rest dots

def looksLikeIp (hostname : List UInt8) : Bool := literalDots hostname 0 == some 3

def octet : List UInt8 → Nat → Nat × List UInt8
  | [], o => (o, [])
  | c :: rest, o =>
    if 48 ≤ c ∧ c ≤ 57 then octet rest (u32 (u32 (o * 10) + (c.toNat - 48))) else (o, c :: rest)

def octets : Nat → List UInt8 → Nat → Nat
  | 0, _, r => r
  | left + 1, s, r =>
    let (o, rest) := octet s 0
    octets left (if rest.head? = some dot then rest.tail else rest) (u32 (r * 256) + o % 256)

def ipFromStr (s : List UInt8) : Nat := htonl (octets 4 s 0)

end Literal

section Query

def be16 (bytes : List UInt8) (off : Nat) : Nat :=
  (bytes.getD off 0).toNat * 256 + (bytes.getD (off + 1) 0).toNat

def dnsUdpCallback (s : Resolver) (d : Datagram) : Resolver :=
  if d.srcIp ≠ s.dnsServer then s
  else if !s.waiting then s
  else if d.data.length < headerSize ∨ 512 < d.data.length then s
  else if be16 d.data 0 ≠ s.waitId then s
  else if be16 d.data 2 &&& dnsFlagQr = 0 then s
  else
    { s with
      respBuf := writeBytes s.respBuf 0 d.data
      respLen := d.data.length
      waiting := false }

def queryHeader (qid : Nat) : List UInt8 :=
  [UInt8.ofNat (qid / 256), UInt8.ofNat qid, 0x01, 0x00, 0, 1, 0, 0, 0, 0, 0, 0]

def queryBytes (qid : Nat) (hostname : List UInt8) : List UInt8 :=
  queryHeader qid ++ encodeName hostname ++ [0x00, 0x01, 0x00, 0x01]

-- What parse_response makes of the buffer, with more turns than it can take.
def parsed (s : Resolver) : Nat :=
  ((parseResponse (maxTurns 512) s.respLen (fresh s.respBuf (fun _ => 0))).1).getD 0

-- What the call cannot know: the clock and the datagrams that come in during each wait.
structure Surroundings where
  lookupMs : Nat
  storeMs : Nat
  arrivals : Nat → List Datagram

def netUdpSend (s : Resolver) (dstIp srcPort dstPort : Nat) (data : List UInt8) : Resolver :=
  { s with sent := { dstIp := dstIp, srcPort := srcPort, dstPort := dstPort, data := data } :: s.sent }

def ask (qid attempt : Nat) (query : List UInt8) (s : Resolver) : Resolver :=
  netUdpSend { s with respLen := 0, waitId := qid, waiting := true } s.dnsServer
    (dnsPort + 1 + attempt) dnsPort query

def attempts (w : Surroundings) (qid : Nat) (query : List UInt8) :
    List Nat → Resolver → Nat × Resolver
  | [], s => (0, s)
  | attempt :: rest, s =>
    let s := (w.arrivals attempt).foldl dnsUdpCallback (ask qid attempt query s)
    if !s.waiting && 0 < s.respLen then (parsed s, s) else attempts w qid query rest s

def dnsResolve (w : Surroundings) (hostname : List UInt8) (s : Resolver) : Nat × Resolver :=
  if hostname = [] then (0, s)
  else if looksLikeIp hostname then (ipFromStr hostname, s)
  else
    let (hit, cache) := cacheLookup w.lookupMs hostname s.cache
    let s := { s with cache := cache }
    match hit with
    | some i => ((cache i).ip, s)
    | none =>
      if s.dnsServer = 0 then (0, s)
      else
        let qid := s.nextId
        let s := { s with nextId := u16 (s.nextId + 1) }
        let (resolved, s) :=
          attempts w qid (queryBytes qid hostname) (List.range dnsMaxRetries) s
        let s := { s with waiting := false }
        if resolved = 0 then (0, s)
        else (resolved, { s with cache := cacheStore w.storeMs hostname resolved 60 s.cache })

end Query

section Kept

theorem dnsUdpCallback_kept (s : Resolver) (d : Datagram) :
    (dnsUdpCallback s d).sent = s.sent ∧ (dnsUdpCallback s d).cache = s.cache := by
  unfold dnsUdpCallback
  repeat' split
  all_goals exact ⟨rfl, rfl⟩

theorem dnsUdpCallback_fits {s : Resolver} (h : s.respLen ≤ 512) (d : Datagram) :
    (dnsUdpCallback s d).respLen ≤ 512 := by
  unfold dnsUdpCallback
  repeat' split
  all_goals first
    | exact h
    | next hlen _ _ =>
      simp only [not_or, not_lt] at hlen
      exact hlen.2

theorem arrivals_kept (ds : List Datagram) (s : Resolver) :
    (ds.foldl dnsUdpCallback s).sent = s.sent ∧ (ds.foldl dnsUdpCallback s).cache = s.cache := by
  induction ds generalizing s with
  | nil => exact ⟨rfl, rfl⟩
  | cons d ds ih =>
    obtain ⟨hsent, hcache⟩ := dnsUdpCallback_kept s d
    rw [List.foldl_cons, (ih _).1, (ih _).2]
    exact ⟨hsent, hcache⟩

theorem arrivals_fit (ds : List Datagram) {s : Resolver} (h : s.respLen ≤ 512) :
    (ds.foldl dnsUdpCallback s).respLen ≤ 512 := by
  induction ds generalizing s with
  | nil => exact h
  | cons d ds ih => exact ih (dnsUdpCallback_fits h d)

-- The parser always comes to its end on what the callback has put into the buffer.
theorem parsed_ends {s : Resolver} (h : s.respLen ≤ 512) : ∃ b,
    parseResponse (maxTurns 512) s.respLen (fresh s.respBuf (fun _ => 0)) = (some (parsed s), b) := by
  have hturns : maxTurns s.respLen ≤ maxTurns 512 := by
    unfold maxTurns
    omega
  obtain ⟨ip, b, hrun, -⟩ :=
    (parseResponse_within h hturns (fresh_within s.respBuf (fun _ => 0) s.respLen 254)).ends
  refine ⟨b, ?_⟩
  rw [parsed, hrun]
  rfl

theorem attempts_sent (w : Surroundings) (qid : Nat) (query : List UInt8) (turns : List Nat)
    (s : Resolver) :
    (attempts w qid query turns s).2.cache = s.cache ∧
      ∃ new, (attempts w qid query turns s).2.sent = new ++ s.sent ∧
        (turns ≠ [] → new ≠ []) ∧ ∀ q ∈ new, q.data = query := by
  induction turns generalizing s with
  | nil => exact ⟨rfl, [], rfl, fun h => absurd rfl h, fun _ hq => absurd hq List.not_mem_nil⟩
  | cons attempt turns ih =>
    have hkept := arrivals_kept (w.arrivals attempt) (ask qid attempt query s)
    have hask : ∃ q, (ask qid attempt query s).sent = [q] ++ s.sent ∧ q.data = query := ⟨_, rfl, rfl⟩
    obtain ⟨q, hq, hdata⟩ := hask
    rw [attempts]
    split
    · refine ⟨hkept.2, [q], hkept.1.trans hq, fun _ => List.cons_ne_nil _ _, fun r hr => ?_⟩
      rw [List.mem_singleton.mp hr, hdata]
    · obtain ⟨hcache, new, hsent, -, hall⟩ :=
        ih ((w.arrivals attempt).foldl dnsUdpCallback (ask qid attempt query s))
      refine ⟨hcache.trans hkept.2, new ++ [q], ?_, fun _ => by simp, fun r hr => ?_⟩
      · rw [hsent, hkept.1, hq, List.append_assoc]
      · rcases List.mem_append.mp hr with hr | hr
        · exact hall r hr
        · rw [List.mem_singleton.mp hr, hdata]

theorem cacheScan_kept (now : Nat) (name : List UInt8) (slots : List (Fin 16)) (c : Cache)
    (i : Fin 16) (hv : ((cacheScan now name slots c).2 i).valid) :
    (cacheScan now name slots c).2 i = c i := by
  induction slots generalizing c with
  | nil => rfl
  | cons k slots ih =>
    rw [cacheScan] at hv ⊢
    split at hv
    · next h => rw [if_pos h]; exact ih c hv
    · next h =>
      rw [if_neg h]
      split at hv
      · next hold =>
        rw [if_pos hold]
        have hdropped := ih _ hv
        by_cases hik : i = k
        · rw [hdropped, hik, Function.update_self] at hv
          exact absurd hv (by simp)
        · rw [hdropped, Function.update_of_ne hik]
      · next hold =>
        rw [if_neg hold]
        split at hv
        · next hname => rw [if_pos hname]
        · next hname => rw [if_neg hname]; exact ih c hv

theorem cacheStore_kept (now : Nat) (name : List UInt8) (ip ttlSec : Nat) (c : Cache) (i : Fin 16) :
    cacheStore now name ip ttlSec c i = c i ∨
      (cacheStore now name ip ttlSec c i).name = name.take dnsMaxName := by
  unfold cacheStore
  by_cases hi : i = pickSlot c (List.finRange 16) 0 0xFFFFFFFF
  · right
    rw [← hi, Function.update_self]
  · left
    rw [Function.update_of_ne hi]

end Kept

section Asked

-- The question is for just these labels, which are the ones that the text writes.
def Denotes (query hostname : List UInt8) : Prop :=
  ∃ labels, (∀ l ∈ labels, ValidLabel l) ∧ Writes dot labels hostname ∧
    query.drop headerSize = wire labels ++ [0, 1, 0, 1]

-- The queries of a call are for the name it was given, without one the call gives 0, and
-- what the call puts into the cache is under a name that was asked for.
def AsksFor (w : Surroundings) (hostname : List UInt8) (s : Resolver) : Prop :=
  ∃ new, (dnsResolve w hostname s).2.sent = new ++ s.sent ∧
    (new = [] → (dnsResolve w hostname s).1 = 0) ∧ (∀ q ∈ new, Denotes q.data hostname) ∧
    ∀ i, ((dnsResolve w hostname s).2.cache i).valid →
      (dnsResolve w hostname s).2.cache i = s.cache i ∨
        ∃ q ∈ new, Denotes q.data ((dnsResolve w hostname s).2.cache i).name

variable {w : Surroundings} {hostname : List UInt8} {s : Resolver}

theorem queryBytes_denotes (qid : Nat) (hlen : hostname.length ≤ 63)
    (hnul : ∀ c ∈ hostname, c ≠ 0) :
    Denotes (queryBytes qid hostname) hostname ↔ hostname = [dot] ∨ Plain dot hostname := by
  constructor
  · rintro ⟨labels, hl, hw, -⟩
    exact plain_of_writes (fun l h => (hl l h).isLabel) hw
  · intro h
    obtain ⟨labels, hl, hw⟩ := (writes_iff hostname).mpr h
    have hshort : ∀ l ∈ labels, l.length ≤ 63 := fun l h => (label_sublist hw h).length_le.trans hlen
    refine ⟨labels, fun l h => ⟨(hl l h).1, hshort l h, fun c hc => ⟨?_, ?_⟩⟩, hw, ?_⟩
    · exact hnul c ((label_sublist hw h).subset hc)
    · rintro rfl
      exact (hl l h).2 hc
    · rw [queryBytes, encodeName_writes hl hshort hw, List.append_assoc]
      rfl

theorem dnsResolve_missed (hne : hostname ≠ []) (hlit : looksLikeIp hostname = false)
    (hmiss : (cacheLookup w.lookupMs hostname s.cache).1 = none) :
    ∃ new, (dnsResolve w hostname s).2.sent = new ++ s.sent ∧
      (new = [] ↔ s.dnsServer = 0) ∧ (s.dnsServer = 0 → (dnsResolve w hostname s).1 = 0) ∧
      (∀ q ∈ new, q.data = queryBytes s.nextId hostname) ∧
      ∀ i, ((dnsResolve w hostname s).2.cache i).valid →
        (dnsResolve w hostname s).2.cache i = s.cache i ∨
          s.dnsServer ≠ 0 ∧
            ((dnsResolve w hostname s).2.cache i).name = hostname.take dnsMaxName := by
  rcases hlook : cacheLookup w.lookupMs hostname s.cache with ⟨hit, c⟩
  rw [hlook] at hmiss
  obtain rfl : hit = none := hmiss
  have hscan : ∀ i, (c i).valid → c i = s.cache i := by
    intro i hv
    have hc : (cacheScan w.lookupMs hostname (List.finRange 16) s.cache).2 = c :=
      congrArg Prod.snd hlook
    rw [← hc] at hv ⊢
    exact cacheScan_kept _ _ _ _ i hv
  unfold dnsResolve
  rw [if_neg hne, hlit, if_neg Bool.false_ne_true, hlook]
  dsimp only
  by_cases hserver : s.dnsServer = 0
  · rw [if_pos hserver]
    exact ⟨[], rfl, ⟨fun _ => hserver, fun _ => rfl⟩, fun _ => rfl,
      fun _ hq => absurd hq List.not_mem_nil, fun i hv => .inl (hscan i hv)⟩
  · rw [if_neg hserver]
    obtain ⟨hcache, new, hsent, hsome, hall⟩ := attempts_sent w s.nextId
      (queryBytes s.nextId hostname) (List.range dnsMaxRetries)
      { s with cache := c, nextId := u16 (s.nextId + 1) }
    rcases hrun : attempts w s.nextId (queryBytes s.nextId hostname) (List.range dnsMaxRetries)
      { s with cache := c, nextId := u16 (s.nextId + 1) } with ⟨resolved, s1⟩
    rw [hrun] at hcache hsent
    dsimp only at hcache hsent ⊢
    refine ⟨new, ?_, ⟨fun h => absurd h (hsome (by decide)), fun h => absurd h hserver⟩,
      fun h => absurd h hserver, hall, fun i => ?_⟩
    · split <;> exact hsent
    · split
      · intro hv
        rw [hcache] at hv ⊢
        exact .inl (hscan i hv)
      · intro hv
        dsimp only at hv ⊢
        rcases cacheStore_kept w.storeMs hostname resolved 60 s1.cache i with hsame | hname
        · rw [hsame, hcache] at hv ⊢
          exact .inl (hscan i hv)
        · exact .inr ⟨hserver, hname⟩

theorem asksFor_plain (hne : hostname ≠ []) (hlen : hostname.length ≤ 63)
    (hnul : ∀ c ∈ hostname, c ≠ 0) (hlit : looksLikeIp hostname = false)
    (hmiss : (cacheLookup w.lookupMs hostname s.cache).1 = none)
    (h : s.dnsServer = 0 ∨ hostname = [dot] ∨ Plain dot hostname) : AsksFor w hostname s := by
  obtain ⟨new, hsent, hnew, hzero, hall, hcached⟩ := @dnsResolve_missed w hostname s hne hlit hmiss
  have htake : hostname.take dnsMaxName = hostname :=
    List.take_of_length_le (hlen.trans (by decide))
  rcases h with hserver | hplain
  · obtain rfl := hnew.mpr hserver
    exact ⟨[], hsent, fun _ => hzero hserver, fun _ hq => absurd hq List.not_mem_nil,
      fun i hv => (hcached i hv).imp_right fun h => absurd hserver h.1⟩
  · have hden := (queryBytes_denotes s.nextId hlen hnul).mpr hplain
    refine ⟨new, hsent, fun h => hzero (hnew.mp h), fun q hq => by rwa [hall q hq], fun i hv => ?_⟩
    refine (hcached i hv).imp_right fun ⟨hserver, hname⟩ => ?_
    obtain ⟨q, rest, rfl⟩ := List.exists_cons_of_ne_nil fun h => hserver (hnew.mp h)
    refine ⟨q, List.mem_cons_self, ?_⟩
    rw [hname, htake, hall q List.mem_cons_self]
    exact hden

theorem not_asksFor_gap (hne : hostname ≠ []) (hlen : hostname.length ≤ 63)
    (hnul : ∀ c ∈ hostname, c ≠ 0) (hlit : looksLikeIp hostname = false)
    (hmiss : (cacheLookup w.lookupMs hostname s.cache).1 = none) (hserver : s.dnsServer ≠ 0)
    (hgap : ¬(hostname = [dot] ∨ Plain dot hostname)) : ¬ AsksFor w hostname s := by
  rintro ⟨new', hsent', -, hasked, -⟩
  obtain ⟨new, hsent, hnew, -, hall, -⟩ := @dnsResolve_missed w hostname s hne hlit hmiss
  obtain rfl : new' = new := List.append_cancel_right (hsent'.symm.trans hsent)
  obtain ⟨q, rest, rfl⟩ := List.exists_cons_of_ne_nil fun h => hserver (hnew.mp h)
  have hq := hasked q List.mem_cons_self
  rw [hall q List.mem_cons_self] at hq
  exact hgap ((queryBytes_denotes s.nextId hlen hnul).mp hq)

theorem query_is_for_the_hostname_iff (hne : hostname ≠ []) (hlen : hostname.length ≤ 63)
    (hnul : ∀ c ∈ hostname, c ≠ 0) (hlit : looksLikeIp hostname = false)
    (hmiss : (cacheLookup w.lookupMs hostname s.cache).1 = none) :
    AsksFor w hostname s ↔ s.dnsServer = 0 ∨ hostname = [dot] ∨ Plain dot hostname := by
  refine ⟨fun h => ?_, asksFor_plain hne hlen hnul hlit hmiss⟩
  by_cases hserver : s.dnsServer = 0
  · exact .inl hserver
  · exact .inr (Classical.byContradiction fun hgap =>
      not_asksFor_gap hne hlen hnul hlit hmiss hserver hgap h)

def coldResolver : Resolver where
  dnsServer := 1
  nextId := 0x1337
  cache := fun _ => { name := [], ip := 0, ttlDeadlineMs := 0, valid := false }
  waiting := false
  waitId := 0
  respBuf := fun _ => 0
  respLen := 0
  sent := []

def silence : Surroundings where
  lookupMs := 0
  storeMs := 0
  arrivals := fun _ => []

theorem query_for_two_labels :
    AsksFor silence [97, 46, 98] coldResolver ↔
      coldResolver.dnsServer = 0 ∨ [97, 46, 98] = [dot] ∨ Plain dot [97, 46, 98] :=
  query_is_for_the_hostname_iff (by decide) (by decide) (by simp) (by decide) (by decide)

-- The name a..b is asked for as the name a.
theorem doubled_dot_asks_for_another :
    ¬ AsksFor silence [97, 46, 46, 98] coldResolver ∧
      queryBytes 0x1337 [97, 46, 46, 98] = queryBytes 0x1337 [97] := by
  refine ⟨not_asksFor_gap (by decide) (by decide) (by simp) (by decide) (by decide) (by decide)
    (by decide), ?_⟩
  have hlabel : IsLabel dot [97] := ⟨by decide, by decide⟩
  have hone : encodeLabels ([97] ++ []) = 1 :: ([97] ++ encodeLabels []) :=
    encodeLabels_label hlabel (by decide) (.inl rfl)
  have hgap : encodeLabels ([97] ++ [46, 46, 98]) = 1 :: ([97] ++ encodeLabels [46, 98]) :=
    encodeLabels_label hlabel (by decide) (.inr ⟨[46, 98], rfl⟩)
  have hstop : encodeLabels [46, 98] = [] := by
    rw [encodeLabels]
    simp [dot, u8]
  have hsame : encodeLabels [97, 46, 46, 98] = encodeLabels [97] :=
    hgap.trans ((congrArg (fun t => 1 :: ([97] ++ t)) (hstop.trans encodeLabels_nil.symm)).trans
      hone.symm)
  rw [queryBytes, queryBytes, encodeName, encodeName, hsame]

end Asked

end Dns
