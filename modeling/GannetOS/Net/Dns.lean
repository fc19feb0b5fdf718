/-
What `dns_resolve` of `dns.c` does with a response (`parseResponse`). The query, the socket and the wait are not modelled.

The outer `none` of a result is a read at or behind resp_len, or a loop that does not end; the inner one is the return
value 0.

A well-formed message is given by its fields (`Response`): the header, one question, answer records, and whatever stands
behind them.

- `answers_parsed`: on any response of up to 512 bytes the parser ends and reads inside the response only; on a well-formed
  one with the right id it returns the address of the first record of type A, class IN and RDLENGTH 4 among the answers.
-/
import GannetOS.Net.Ipv4Literal
import GannetOS.Net.DnsName

namespace GannetOS.Net.Dns

open List

/-! ## The functions -/

def dnsMaxPacket : ℕ := 512

/-- `ntohs` of a field of the response -/
def read16 (p : List UInt8) (k : ℕ) : Option UInt16 := do
  let a ← p[k]?
  let b ← p[k + 1]?
  return a.toUInt16 <<< 8 ||| b.toUInt16

/-- the address in the RDATA of a record -/
def readAddress (p : List UInt8) (k : ℕ) : Option UInt32 := do
  let a ← p[k]?
  let b ← p[k + 1]?
  let c ← p[k + 2]?
  let d ← p[k + 3]?
  return a.toUInt32 <<< 24 ||| b.toUInt32 <<< 16 ||| c.toUInt32 <<< 8 ||| d.toUInt32

/-- the loop over the answers, with that many of them to go -/
def answerLoop (p : List UInt8) : ℕ → UInt16 → Option (Option UInt32)
  | 0, _ => some none
  | n + 1, offset =>
    if offset.toNat < p.length then do
      let offset ← skipName p offset
      if offset.toNat + 10 > p.length then some none
      else
        let rtype ← read16 p offset.toNat
        let rclass ← read16 p (offset.toNat + 2)
        let rdlen ← read16 p (offset.toNat + 8)
        let rdataOffset := offset + 10
        if rdataOffset.toNat + rdlen.toNat > p.length then some none
        else if rtype = 1 ∧ rclass = 1 ∧ rdlen = 4 then (readAddress p rdataOffset.toNat).map some
        else answerLoop p n (rdataOffset + rdlen)
    else some none

/-- what `dns_resolve` makes of a response -/
def parseResponse (p : List UInt8) (txid : UInt16) : Option (Option UInt32) :=
  if p.length < 12 then some none
  else do
    let id ← read16 p 0
    if id ≠ txid then some none
    else
      let flags ← read16 p 2
      if flags &&& 0x8000 = 0 then some none
      else if flags &&& 0x000F ≠ 0 then some none
      else
        let ancount ← read16 p 6
        if ancount = 0 then some none
        else
          let offset ← skipName p 12
          answerLoop p ancount.toNat (offset + 4)

/-! ## Messages -/

/-- a resource record -/
structure Record where
  name : WireName
  type : UInt16
  rrClass : UInt16
  ttl : UInt32
  rdata : List UInt8
  short : rdata.length < 65536

namespace Record

def bytes (r : Record) : List UInt8 :=
  r.name.bytes ++ (be16 r.type ++ (be16 r.rrClass ++ (be32 r.ttl ++ (be16 (UInt16.ofNat r.rdata.length) ++ r.rdata))))

/-- TYPE A, CLASS IN, RDLENGTH 4 -/
def isA (r : Record) : Bool := r.type = 1 ∧ r.rrClass = 1 ∧ r.rdata.length = 4

/-- the address a record carries -/
def address (r : Record) : UInt32 := get32 r.rdata 0

end Record

/-- a response without an error: the header, one question, the answers, and what follows them -/
structure Response where
  id : UInt16
  flags : UInt16
  nscount : UInt16
  arcount : UInt16
  qname : WireName
  qtype : UInt16
  qclass : UInt16
  answers : List Record
  others : List UInt8
  isResponse : flags &&& 0x8000 ≠ 0
  noError : flags &&& 0x000F = 0

def Response.header (m : Response) : List UInt8 :=
  be16 m.id ++ (be16 m.flags ++ (be16 1 ++ (be16 (UInt16.ofNat m.answers.length) ++ (be16 m.nscount ++ be16 m.arcount))))

def Response.bytes (m : Response) : List UInt8 :=
  m.header ++ (m.qname.bytes ++ (be16 m.qtype ++ be16 m.qclass ++ (m.answers.flatMap Record.bytes ++ m.others)))

/-! ## Reads -/

variable {p before after : List UInt8} {k : ℕ}

theorem read16_some (h : k + 2 ≤ p.length) : read16 p k = some (get16 p k) := by
  rw [read16, getElem?_eq_getElem (by omega), getElem?_eq_getElem (by omega), get16,
    getD_eq_getElem _ _ (by omega), getD_eq_getElem _ _ (by omega)]
  rfl

theorem quad_eq (a b c d : UInt8) (l : List UInt8) :
    a.toUInt32 <<< 24 ||| b.toUInt32 <<< 16 ||| c.toUInt32 <<< 8 ||| d.toUInt32 = get32 (a :: b :: c :: d :: l) 0 := by
  have hof (x : UInt8) : UInt32.ofNat x.toNat = x.toUInt32 := by
    apply UInt32.toNat_inj.1
    have := x.toNat_lt
    rw [UInt32.toNat_ofNat', Nat.mod_eq_of_lt (by omega), UInt8.toNat_toUInt32]
  have hle (x : UInt8) : x.toNat ≤ 255 := by
    have := x.toNat_lt
    omega
  have hbytes := (octets_eq_iff (hle a) (hle b) (hle c) (hle d) _).1 rfl
  rw [hof, hof, hof, hof] at hbytes
  have hlist : be32 (a.toUInt32 <<< 24 ||| b.toUInt32 <<< 16 ||| c.toUInt32 <<< 8 ||| d.toUInt32) = [a, b, c, d] :=
    List.map_injective_iff.2 (fun x y h => UInt8.toNat_inj.1 h) hbytes
  have hget := get32_be32 (a.toUInt32 <<< 24 ||| b.toUInt32 <<< 16 ||| c.toUInt32 <<< 8 ||| d.toUInt32) l
  rw [hlist] at hget
  exact hget.symm

theorem readAddress_some (h : k + 4 ≤ p.length) :
    readAddress p k = some (get32 (p.drop k) 0) := by
  have hdrop : p.drop k = p[k] :: p[k + 1] :: p[k + 2] :: p[k + 3] :: p.drop (k + 4) := by
    rw [drop_eq_getElem_cons (by omega), drop_eq_getElem_cons (by omega), drop_eq_getElem_cons (by omega),
      drop_eq_getElem_cons (by omega)]
  rw [readAddress, getElem?_eq_getElem (by omega), getElem?_eq_getElem (by omega),
    getElem?_eq_getElem (by omega), getElem?_eq_getElem (by omega), hdrop, ← quad_eq]
  rfl

/-! ## Every response -/

/-- the offset stays far from 2^16, so `skip_name` ends; it reads inside the packet -/
theorem skipLoop_isSome (hlen : p.length ≤ dnsMaxPacket) {n : ℕ} {offset : UInt16}
    (hn : p.length - offset.toNat < n) : (skipLoop p n offset).isSome = true := by
  unfold dnsMaxPacket at hlen
  induction n generalizing offset with
  | zero => exact absurd hn (Nat.not_lt_zero _)
  | succ n ih =>
    rw [skipLoop]
    by_cases hin : offset.toNat < p.length
    · rw [if_pos hin, getElem?_eq_getElem hin]
      generalize p[offset.toNat] = c
      simp only [Option.bind_eq_bind, Option.bind_some]
      split_ifs
      · rfl
      · rfl
      · have hc := c.toNat_lt
        have hnext : (offset + 1 + c.toUInt16).toNat = offset.toNat + 1 + c.toNat := by
          rw [UInt16.toNat_add, UInt16.toNat_add, UInt8.toNat_toUInt16, UInt16.toNat_one,
            Nat.mod_eq_of_lt (by omega : offset.toNat + 1 < 2 ^ 16), Nat.mod_eq_of_lt (by omega)]
        exact ih (by rw [hnext]; omega)
    · rw [if_neg hin]
      rfl

theorem skipName_isSome (hlen : p.length ≤ dnsMaxPacket) (offset : UInt16) :
    ∃ r, skipName p offset = some r :=
  Option.isSome_iff_exists.1 (skipLoop_isSome hlen (by omega))

/-- each round reads what its tests have found to be inside -/
theorem answerLoop_isSome (hlen : p.length ≤ dnsMaxPacket) (n : ℕ) (offset : UInt16) :
    (answerLoop p n offset).isSome = true := by
  have hsmall : p.length ≤ 512 := hlen
  induction n generalizing offset with
  | zero => rfl
  | succ n ih =>
    rw [answerLoop]
    by_cases hin : offset.toNat < p.length
    · obtain ⟨o, ho⟩ := skipName_isSome hlen offset
      rw [if_pos hin, ho]
      simp only [Option.bind_eq_bind, Option.bind_some]
      by_cases hfixed : o.toNat + 10 > p.length
      · rw [if_pos hfixed]
        rfl
      · rw [if_neg hfixed, read16_some (by omega), read16_some (by omega), read16_some (by omega)]
        have hdata : (o + 10).toNat = o.toNat + 10 := by
          rw [UInt16.toNat_add, Nat.mod_eq_of_lt]
          · rfl
          · have : (10 : UInt16).toNat = 10 := rfl
            omega
        simp only [Option.bind_some]
        split_ifs with hover ha
        · rfl
        · have hfour : (get16 p (o.toNat + 8)).toNat = 4 := by rw [ha.2.2]; rfl
          rw [readAddress_some (by omega)]
          rfl
        · exact ih _
    · rw [if_neg hin]
      rfl

theorem parseResponse_isSome (hlen : p.length ≤ dnsMaxPacket) (txid : UInt16) :
    (parseResponse p txid).isSome = true := by
  rw [parseResponse]
  split_ifs with hshort
  · rfl
  · rw [read16_some (by omega), read16_some (by omega), read16_some (by omega)]
    obtain ⟨o, ho⟩ := skipName_isSome hlen 12
    simp only [Option.bind_eq_bind, Option.bind_some, ho]
    split_ifs
    · rfl
    · rfl
    · rfl
    · rfl
    · exact answerLoop_isSome hlen _ _

/-! ## Well-formed responses -/

/-- a 16-bit field, read where it is -/
theorem read16_field {x : UInt16} (hp : p = before ++ (be16 x ++ after)) (hk : k = before.length) :
    read16 p k = some x := by
  have hlen : k + 2 ≤ p.length := by
    rw [hp, length_append, length_append, be16_length]
    omega
  rw [read16_some hlen, hp, get16_append _ hk.ge, hk, Nat.sub_self]
  exact congrArg some (be16_join x)

theorem record_length (r : Record) : r.bytes.length = r.name.bytes.length + 10 + r.rdata.length := by
  simp only [Record.bytes, length_append, be16_length]
  have : (be32 r.ttl).length = 4 := rfl
  omega

theorem get32_four {l : List UInt8} (h : l.length = 4) (after : List UInt8) : get32 (l ++ after) 0 = get32 l 0 :=
  match l, h with
  | [_, _, _, _], _ => rfl

/-- one round of the loop at a record: it is taken if it is an A record, and stepped over otherwise -/
theorem answerLoop_record {r : Record} (hlen : p.length ≤ dnsMaxPacket) (hp : p = before ++ (r.bytes ++ after))
    (n : ℕ) : answerLoop p (n + 1) (UInt16.ofNat before.length) =
      if r.isA then some (some r.address)
      else answerLoop p n (UInt16.ofNat (before ++ r.bytes).length) := by
  unfold dnsMaxPacket at hlen
  have htotal : p.length = before.length + (r.name.bytes.length + 10 + r.rdata.length) + after.length := by
    rw [hp, length_append, length_append, record_length]
    omega
  have hoff {k : ℕ} (hk : k ≤ p.length) : (UInt16.ofNat k).toNat = k := by
    rw [UInt16.toNat_ofNat', Nat.mod_eq_of_lt (by omega)]
  -- the parts of the record, each with what stands before it
  have hname : p = before ++ (r.name.bytes ++ (be16 r.type ++ (be16 r.rrClass ++ (be32 r.ttl ++
      (be16 (UInt16.ofNat r.rdata.length) ++ (r.rdata ++ after)))))) := by
    rw [hp, Record.bytes]
    simp only [append_assoc]
  have htype : p = (before ++ r.name.bytes) ++ (be16 r.type ++ (be16 r.rrClass ++ (be32 r.ttl ++
      (be16 (UInt16.ofNat r.rdata.length) ++ (r.rdata ++ after))))) := by
    rw [hname, append_assoc]
  have hclass : p = (before ++ r.name.bytes ++ be16 r.type) ++ (be16 r.rrClass ++ (be32 r.ttl ++
      (be16 (UInt16.ofNat r.rdata.length) ++ (r.rdata ++ after)))) := by
    rw [htype, append_assoc (before ++ r.name.bytes)]
  have hrdlen : p = (before ++ r.name.bytes ++ be16 r.type ++ be16 r.rrClass ++ be32 r.ttl) ++
      (be16 (UInt16.ofNat r.rdata.length) ++ (r.rdata ++ after)) := by
    rw [hclass]
    simp only [append_assoc]
  have hrdata : p = (before ++ r.name.bytes ++ be16 r.type ++ be16 r.rrClass ++ be32 r.ttl ++
      be16 (UInt16.ofNat r.rdata.length)) ++ (r.rdata ++ after) := by
    rw [hrdlen]
    simp only [append_assoc]
  have h32 : (be32 r.ttl).length = 4 := rfl
  have hskip := skipName_name (by omega) r.name hname
  have hstart : (UInt16.ofNat (before.length + r.name.bytes.length)).toNat = before.length + r.name.bytes.length :=
    hoff (by omega)
  have hdata : (UInt16.ofNat (before.length + r.name.bytes.length) + 10).toNat =
      before.length + r.name.bytes.length + 10 := by
    rw [show (10 : UInt16) = UInt16.ofNat 10 from rfl, ← UInt16.ofNat_add, hoff (by omega)]
  have hsize : (UInt16.ofNat r.rdata.length).toNat = r.rdata.length := hoff (by omega)
  rw [answerLoop, hoff (by omega), if_pos (by omega), hskip]
  simp only [Option.bind_eq_bind, Option.bind_some]
  rw [hstart, if_neg (by omega), read16_field htype (by simp),
    read16_field hclass (by rw [length_append, length_append, be16_length]),
    read16_field hrdlen (by simp only [length_append, be16_length, h32])]
  simp only [Option.bind_some]
  rw [hdata, hsize, if_neg (by omega)]
  have hfour : UInt16.ofNat r.rdata.length = 4 ↔ r.rdata.length = 4 := by
    rw [← UInt16.toNat_inj, hsize]
    rfl
  by_cases ha : r.isA = true
  · have hfields : r.type = 1 ∧ r.rrClass = 1 ∧ r.rdata.length = 4 := of_decide_eq_true ha
    have haddr : get32 (p.drop (before.length + r.name.bytes.length + 10)) 0 = r.address := by
      rw [hrdata, drop_left' (by simp only [length_append, be16_length, h32]),
        get32_four hfields.2.2, Record.address]
    rw [if_pos ⟨hfields.1, hfields.2.1, hfour.2 hfields.2.2⟩, if_pos ha, readAddress_some (by omega), haddr]
    rfl
  · have hfields : ¬ (r.type = 1 ∧ r.rrClass = 1 ∧ UInt16.ofNat r.rdata.length = 4) := by
      rw [hfour]
      exact fun hno => ha (decide_eq_true hno)
    have hnext : UInt16.ofNat (before.length + r.name.bytes.length) + 10 + UInt16.ofNat r.rdata.length =
        UInt16.ofNat (before ++ r.bytes).length := by
      rw [show (10 : UInt16) = UInt16.ofNat 10 from rfl, ← UInt16.ofNat_add, ← UInt16.ofNat_add, length_append,
        record_length]
      congr 1
      omega
    rw [if_neg hfields, if_neg ha, hnext]

/-- the loop finds the first A record -/
theorem answerLoop_records (hlen : p.length ≤ dnsMaxPacket) {rs : List Record}
    (hp : p = before ++ (rs.flatMap Record.bytes ++ after)) :
    answerLoop p rs.length (UInt16.ofNat before.length) = some ((rs.find? Record.isA).map Record.address) := by
  induction rs generalizing before with
  | nil => rfl
  | cons r rs ih =>
    have hfirst : p = before ++ (r.bytes ++ (rs.flatMap Record.bytes ++ after)) := by
      rw [hp, flatMap_cons, append_assoc]
    rw [length_cons, answerLoop_record hlen hfirst]
    cases ha : r.isA with
    | true =>
      rw [if_pos rfl, find?_cons_of_pos ha]
      rfl
    | false =>
      rw [if_neg (by decide), find?_cons_of_neg (by rw [ha]; decide)]
      exact ih (by rw [hfirst, append_assoc])

theorem header_length (m : Response) : m.header.length = 12 := rfl

/-- every record has at least eleven bytes, so a count of the answers fits its field -/
theorem answers_le_bytes (rs : List Record) : rs.length ≤ (rs.flatMap Record.bytes).length := by
  induction rs with
  | nil => exact le_rfl
  | cons r rs ih =>
    rw [flatMap_cons, length_append, length_cons, record_length]
    omega

theorem parseResponse_wellFormed (m : Response) (hlen : m.bytes.length ≤ dnsMaxPacket) :
    parseResponse m.bytes m.id = some ((m.answers.find? Record.isA).map Record.address) := by
  have hsmall : m.bytes.length ≤ 512 := hlen
  have hparts : m.bytes.length = 12 + (m.qname.bytes.length + (4 + ((m.answers.flatMap Record.bytes).length +
      m.others.length))) := by
    simp only [Response.bytes, length_append, header_length, be16_length]
  have hcount := answers_le_bytes m.answers
  have hancount : (UInt16.ofNat m.answers.length).toNat = m.answers.length := by
    rw [UInt16.toNat_ofNat', Nat.mod_eq_of_lt (by omega)]
  have hid : m.bytes = [] ++ (be16 m.id ++ m.bytes.drop 2) := rfl
  have hflags : m.bytes = be16 m.id ++ (be16 m.flags ++ m.bytes.drop 4) := rfl
  have hans : m.bytes = (be16 m.id ++ (be16 m.flags ++ be16 1)) ++ (be16 (UInt16.ofNat m.answers.length) ++
      m.bytes.drop 8) := rfl
  have hskip := skipName_name (by omega) m.qname (show m.bytes = m.header ++ (m.qname.bytes ++ _) from rfl)
  rw [header_length] at hskip
  have hanswers : m.bytes = (m.header ++ m.qname.bytes ++ (be16 m.qtype ++ be16 m.qclass)) ++
      (m.answers.flatMap Record.bytes ++ m.others) := by
    rw [Response.bytes]
    simp only [append_assoc]
  have hloop := answerLoop_records hlen hanswers
  have hstart : UInt16.ofNat (12 + m.qname.bytes.length) + 4 =
      UInt16.ofNat (m.header ++ m.qname.bytes ++ (be16 m.qtype ++ be16 m.qclass)).length := by
    rw [show (4 : UInt16) = UInt16.ofNat 4 from rfl, ← UInt16.ofNat_add]
    simp only [length_append, header_length, be16_length]
  rw [parseResponse, if_neg (by omega), read16_field (k := 0) hid rfl, read16_field (k := 2) hflags rfl,
    read16_field (k := 6) hans rfl]
  simp only [Option.bind_eq_bind, Option.bind_some]
  rw [if_neg (not_not.2 rfl), if_neg m.isResponse, if_neg (not_not.2 m.noError)]
  by_cases hnone : m.answers = []
  · rw [hnone]
    rfl
  · have hzero : UInt16.ofNat m.answers.length ≠ 0 := by
      intro h0
      rw [← UInt16.toNat_inj, hancount] at h0
      exact hnone (List.length_eq_zero_iff.1 h0)
    rw [if_neg hzero]
    have h12 : skipName m.bytes 12 = some (UInt16.ofNat (12 + m.qname.bytes.length)) := hskip
    rw [h12, Option.bind_some, hstart, hancount, hloop]

/-- **DNS answers.** For every response of up to 512 bytes the parser of `dns_resolve` ends and reads only bytes of the
response. If the response is well-formed and has the id of the query, it returns the address of the first record of type A,
class IN and RDLENGTH 4 among the answers, and 0 if there is none. -/
theorem answers_parsed (p : List UInt8) (hlen : p.length ≤ 512) (txid : UInt16) :
    (parseResponse p txid).isSome = true ∧
      ∀ m : Response, m.bytes = p → m.id = txid →
        parseResponse p txid = some ((m.answers.find? Record.isA).map Record.address) := by
  refine ⟨parseResponse_isSome hlen txid, ?_⟩
  rintro m rfl rfl
  exact parseResponse_wellFormed m hlen

/-- one A record, its name a pointer to the question -/
def oneAnswer : Response :=
  ⟨7, 0x8180, 0, 0, ⟨[[103]], by decide, .root⟩, 1, 1,
    [⟨⟨[], by decide, .pointer 0xC0 12 rfl⟩, 1, 1, 60, [10, 0, 2, 2], by decide⟩], [], by decide, by decide⟩

theorem answers_parsed_one : oneAnswer.bytes.length ≤ 512 ∧
    parseResponse oneAnswer.bytes 7 = some (some 0x0A000202) :=
  ⟨by decide, (answers_parsed oneAnswer.bytes (by decide) 7).2 oneAnswer rfl rfl⟩

end GannetOS.Net.Dns
