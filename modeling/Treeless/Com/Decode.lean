import Treeless.Com.Heartbeat

/-!
# Com/Decode — which datagrams a heartbeat decoder survives

    count ‖ 12 · count bytes ‖ n₁ ‖ addr₁ ‖ n₂ ‖ addr₂ ‖ … ‖ 0 0 ‖ …

`AmAliveUnMarshal` checks that there are bytes for the next chunk and for the next length, but not
for the count itself nor for the address a length announces.  So a datagram is decoded, or refused
with an error, exactly if it has a count and every address up to the stop is whole (`WellCut`); any
other is a slice out of range (`unmarshal_returns_iff`).  No loop goes round: each turn consumes
bytes, and the loop of the dead servers meets the `0 0` that ended the one of the added ones.
-/

namespace Treeless

namespace Packet

/-- The bytes of the slice: the datagram received. -/
def data (m : Packet) : Bytes := m.buf.take m.len

variable {m : Packet}

@[simp] theorem length_data (m : Packet) : m.data.length = m.len := by
  rw [data, List.length_take, min_eq_left m.len_le]

theorem uint_eq {pos width : ℕ} (h : pos + width ≤ m.len) :
    m.uint pos width = .ok (leNat ((m.data.take (pos + width)).drop pos)) := by
  rw [uint, slice_eq (Nat.le_add_right ..) (by rw [← data, length_data]; exact h)]
  rfl

theorem uint_eq_error {pos width : ℕ} (h : m.len < pos + width) :
    m.uint pos width = .error .bounds := by
  rw [uint, slice, if_neg fun hin => ?_]
  · rfl
  · have hle := hin.2
    rw [← data, length_data] at hle
    omega

/-- What is left of the datagram. -/
theorem skip_eq {n : ℕ} (h : n ≤ m.len) :
    ∃ m', m.skip n = .ok m' ∧ m'.data = m.data.drop n ∧ m'.len = m.len - n :=
  ⟨_, if_pos h, (List.drop_take ..).symm, rfl⟩

theorem skip_eq_error {n : ℕ} (h : m.len < n) : m.skip n = .error .bounds := if_neg h.not_ge

/-- Inside the datagram an address can be taken. -/
theorem exists_sub {lo hi : ℕ} (h : lo ≤ hi) (hhi : hi ≤ m.len) : ∃ bs, m.sub lo hi = .ok bs :=
  ⟨_, slice_eq h (hhi.trans m.len_le)⟩

/-- **An address that is not whole is out of range**: its end lies behind the datagram, or wraps in
16 bits to before its start. -/
theorem address_out {α : Type} {n : ℕ} (h : m.len < 2 + n) (hn : n < 2 ^ 16)
    {f : Bytes → Packet → Call α} :
    (do let addr ← m.sub 2 ((2 + n) % 2 ^ 16); f addr (← m.skip ((2 + n) % 2 ^ 16)))
      = .error .bounds := by
  rcases lt_or_ge (2 + n) (2 ^ 16) with hlt | hge
  · rw [Nat.mod_eq_of_lt hlt, skip_eq_error h, sub, slice]
    split
    · rfl
    · rfl
  · have hwrap : (2 + n) % 2 ^ 16 < 2 := by omega
    rw [sub, slice, if_neg fun hin => absurd hin.1 hwrap.not_ge]
    rfl

end Packet

/-! ## Well-cut datagrams -/

/-- Whole addresses, and then less than a length and its address take, or the length zero. -/
def WholeAddresses (d : Bytes) : Prop :=
  ∃ addrs tail, d = encodeServers addrs ++ tail ∧ (∀ addr ∈ addrs, addr ≠ [])
    ∧ (tail.length < 4 ∨ leNat (tail.take 2) = 0)

/-- The number of chunks a datagram announces. -/
def announced (d : Bytes) : ℕ := leNat (d.take 2)

/-- The datagram has a count, and either fewer bytes than the chunks it announces take, or only
whole addresses behind them. -/
def WellCut (d : Bytes) : Prop :=
  2 ≤ d.length ∧ (0 < announced d ∧ d.length < 12 * announced d + 6
    ∨ WholeAddresses (d.drop (2 + 12 * announced d)))

/-- The first two bytes are the length of the first address. -/
theorem word_encodeServers {addr : Bytes} (h : addr.length < 2 ^ 16) (addrs : List Bytes)
    (tail : Bytes) : leNat ((encodeServers (addr :: addrs) ++ tail).take 2) = addr.length := by
  rw [encodeServers_cons, List.append_assoc, List.append_assoc,
    List.take_left' (length_leBytes ..), leNat_leBytes_of_lt h]

/-- A length and as many bytes are the encoding of an address. -/
theorem encodeServers_take {d : Bytes} (hle : 2 + leNat (d.take 2) ≤ d.length)
    (addrs : List Bytes) :
    encodeServers ((d.drop 2).take (leNat (d.take 2)) :: addrs)
      = d.take 2 ++ ((d.drop 2).take (leNat (d.take 2)) ++ encodeServers addrs) := by
  have hlen : ((d.drop 2).take (leNat (d.take 2))).length = leNat (d.take 2) := by
    rw [List.length_take, List.length_drop]
    omega
  have hword : leBytes 2 (leNat (d.take 2)) = d.take 2 := by
    have h := leBytes_leNat (d.take 2)
    rwa [List.length_take, min_eq_left (by omega)] at h
  rw [encodeServers_cons, hlen, hword, List.append_assoc]

/-- **One address more.** -/
theorem wholeAddresses_iff {d : Bytes} (h4 : 4 ≤ d.length) (hlt : d.length < 2 ^ 16) :
    WholeAddresses d ↔ leNat (d.take 2) = 0 ∨ 2 + leNat (d.take 2) ≤ d.length
      ∧ WholeAddresses (d.drop (2 + leNat (d.take 2))) := by
  constructor
  · rintro ⟨addrs, tail, rfl, hne, htail⟩
    cases addrs with
    | nil => exact Or.inl (htail.resolve_left (not_lt.mpr h4))
    | cons addr addrs =>
      have hlen : addr.length < 2 ^ 16 := by
        simp only [encodeServers_cons, List.length_append] at hlt
        omega
      rw [word_encodeServers hlen]
      refine Or.inr ⟨?_, addrs, tail, ?_, fun a ha => hne a (List.mem_cons_of_mem _ ha), htail⟩
      · simp only [encodeServers_cons, List.length_append, length_leBytes]
        omega
      · rw [encodeServers_cons, List.append_assoc,
          List.drop_left' (by rw [List.length_append, length_leBytes])]
  · rintro (h0 | ⟨hle, addrs, tail, hd, hne, htail⟩)
    · exact ⟨[], d, rfl, by simp, Or.inr h0⟩
    · by_cases h0 : leNat (d.take 2) = 0
      · exact ⟨[], d, rfl, by simp, Or.inr h0⟩
      refine ⟨(d.drop 2).take (leNat (d.take 2)) :: addrs, tail, ?_, ?_, htail⟩
      · rw [encodeServers_take hle, List.append_assoc, List.append_assoc, ← hd, ← List.drop_drop,
          List.take_append_drop, List.take_append_drop]
      · refine List.forall_mem_cons.mpr ⟨fun hnil => ?_, hne⟩
        rcases List.take_eq_nil_iff.mp hnil with hzero | hnil
        · exact h0 hzero
        · rw [List.drop_eq_nil_iff] at hnil
          omega

/-! ## The three loops -/

/-- The chunks are read if there are four bytes behind them. -/
theorem unmarshalChunks_ok : ∀ {n : ℕ} {m : Packet}, n = 0 ∨ 12 * n + 4 ≤ m.len →
    ∃ chunks m', unmarshalChunks n m = .ok (.ok (chunks, m')) ∧ m'.data = m.data.drop (12 * n)
      ∧ m'.len = m.len - 12 * n
  | 0, m, _ => ⟨[], m, rfl, rfl, rfl⟩
  | n + 1, m, h => by
      have hroom : 12 * (n + 1) + 4 ≤ m.len := h.resolve_left (Nat.succ_ne_zero n)
      obtain ⟨m₁, hskip, hdata, hlen⟩ := Packet.skip_eq (m := m) (n := 12) (by omega)
      obtain ⟨chunks, m', hrest, hdata', hlen'⟩ :=
        unmarshalChunks_ok (n := n) (m := m₁) (Or.inr (by omega))
      rw [unmarshalChunks, if_neg (by omega), Packet.uint_eq (by omega), Call.ok_bind,
        Packet.uint_eq (by omega), Call.ok_bind, hskip, Call.ok_bind, hrest, Call.ok_bind]
      refine ⟨_, m', rfl, ?_, by omega⟩
      rw [hdata', hdata, List.drop_drop, Nat.mul_succ, Nat.add_comm]

/-- The chunks are refused if there are not. -/
theorem unmarshalChunks_short : ∀ {n : ℕ} {m : Packet}, 0 < n → m.len < 12 * n + 4 →
    unmarshalChunks n m = .ok (.error .error1)
  | n + 1, m, _, hshort => by
      rw [unmarshalChunks]
      split
      · rfl
      · obtain ⟨m₁, hskip, -, hlen⟩ := Packet.skip_eq (m := m) (n := 12) (by omega)
        rw [Packet.uint_eq (by omega), Call.ok_bind, Packet.uint_eq (by omega), Call.ok_bind, hskip,
          Call.ok_bind, unmarshalChunks_short (by omega) (by omega)]
        rfl

/-- **The loop of the added servers** returns exactly if the addresses are whole; where it stops for
the length zero, that is still to be read. -/
theorem unmarshalServers_ends (err : BadFormatting) : ∀ (fuel : ℕ) (m : Packet), m.len < fuel →
    m.len < 2 ^ 16 → (unmarshalServers 4 err fuel m).Ends
      (fun f => f = .bounds ∧ ¬ WholeAddresses m.data)
      fun r => WholeAddresses m.data ∧ ∀ addrs m', r = .ok (addrs, m') →
        2 ≤ m'.len ∧ leNat (m'.data.take 2) = 0
  | fuel + 1, m, hfuel, hlt => by
      have hlen := m.length_data
      rw [unmarshalServers]
      split
      · next hshort =>
        exact ⟨⟨[], m.data, rfl, by simp, Or.inl (by omega)⟩, fun _ _ h => by cases h⟩
      next h4 =>
      have hiff := wholeAddresses_iff (d := m.data) (by omega) (by omega)
      rw [Packet.uint_eq (by omega), Call.ok_bind, Nat.zero_add, List.drop_zero]
      split
      · next h0 =>
        refine ⟨hiff.mpr (Or.inl h0), ?_⟩
        rintro _ _ ⟨⟩
        exact ⟨by omega, h0⟩
      next h0 =>
      have hword : leNat (m.data.take 2) < 2 ^ 16 := by
        have := leNat_lt (m.data.take 2)
        rwa [List.length_take, hlen, min_eq_left (by omega)] at this
      rw [hiff, or_iff_right h0, hlen]
      by_cases hin : 2 + leNat (m.data.take 2) ≤ m.len
      · have hstop : (2 + leNat (m.data.take 2)) % 2 ^ 16 = 2 + leNat (m.data.take 2) :=
          Nat.mod_eq_of_lt (by omega)
        obtain ⟨addr, haddr⟩ := Packet.exists_sub (m := m) (Nat.le_add_right 2 _) hin
        obtain ⟨m₁, hskip, hdata, hlen₁⟩ := Packet.skip_eq hin
        dsimp only
        rw [hstop, haddr, Call.ok_bind, hskip, Call.ok_bind, and_iff_right hin, ← hdata]
        refine (unmarshalServers_ends err fuel m₁ (by omega) (by omega)).seq fun r hr => ?_
        cases r with
        | error e => exact ⟨hr.1, fun _ _ h => by cases h⟩
        | ok p =>
          refine ⟨hr.1, ?_⟩
          rintro _ _ ⟨⟩
          exact hr.2 p.1 p.2 rfl
      · dsimp only
        rw [Packet.address_out (by omega) hword]
        exact ⟨rfl, fun h => hin h.1⟩

/-- The loop of the dead servers stops at once. -/
theorem unmarshalServers_stop (err : BadFormatting) (fuel : ℕ) {m : Packet} (h2 : 2 ≤ m.len)
    (h0 : leNat (m.data.take 2) = 0) :
    unmarshalServers 2 err (fuel + 1) m = .ok (.ok ([], m)) := by
  rw [unmarshalServers, if_neg h2.not_gt, Packet.uint_eq (by omega), Call.ok_bind, Nat.zero_add,
    List.drop_zero, if_pos h0]
  rfl

/-! ## The decoder -/

/-- **How the decoder ends.** -/
theorem amAliveUnMarshal_ends {msg : Packet} (hlt : msg.len < 2 ^ 16) :
    (amAliveUnMarshal msg).Ends (fun f => f = .bounds ∧ ¬ WellCut msg.data)
      fun _ => WellCut msg.data := by
  have hlen := msg.length_data
  rw [amAliveUnMarshal]
  rcases lt_or_ge msg.len 2 with hshort | h2
  · rw [Packet.uint_eq_error (by omega)]
    exact ⟨rfl, fun h => absurd h.1 (by omega)⟩
  obtain ⟨m, hskip, hdata, hm⟩ := Packet.skip_eq h2
  have hcut : WellCut msg.data ↔ 0 < announced msg.data ∧ m.len < 12 * announced msg.data + 4
      ∨ WholeAddresses (m.data.drop (12 * announced msg.data)) := by
    rw [WellCut, hlen, and_iff_right h2, hdata, List.drop_drop]
    exact or_congr (and_congr_right fun _ => by omega) Iff.rfl
  rw [hcut, Packet.uint_eq (by omega), Call.ok_bind, hskip, Call.ok_bind, Nat.zero_add,
    List.drop_zero, ← announced]
  by_cases hfew : 0 < announced msg.data ∧ m.len < 12 * announced msg.data + 4
  · rw [unmarshalChunks_short hfew.1 hfew.2]
    exact Or.inl hfew
  obtain ⟨chunks, m₁, hchunks, hdata₁, hlen₁⟩ :=
    unmarshalChunks_ok (n := announced msg.data) (m := m) (by omega)
  rw [hchunks, Call.ok_bind, ← hdata₁, or_iff_right hfew]
  refine (unmarshalServers_ends .error2 (m₁.len + 1) m₁ (by omega) (by omega)).seq fun r hr => ?_
  cases r with
  | error e => exact hr.1
  | ok p =>
    obtain ⟨h2, h0⟩ := hr.2 p.1 p.2 rfl
    dsimp only
    rw [unmarshalServers_stop .error3 p.2.len h2 h0]
    exact hr.1

/-- **Which datagrams are decoded or refused**: of those received in a heartbeat's buffer exactly
the well-cut ones; on any other an index or a slice is out of range. -/
theorem unmarshal_returns_iff (msg : Packet) (hbuf : msg.buf.length = maxHeartbeatSize) :
    ((∃ r, amAliveUnMarshal msg = .ok r) ↔ WellCut (msg.buf.take msg.len))
    ∧ (¬ WellCut (msg.buf.take msg.len) → amAliveUnMarshal msg = .error .bounds) := by
  have hlt : msg.len < 2 ^ 16 := (msg.len_le.trans hbuf.le).trans_lt (by decide)
  have hends := amAliveUnMarshal_ends hlt
  rw [← Packet.data]
  cases hx : amAliveUnMarshal msg with
  | ok r =>
    have hcut : WellCut msg.data := hends.returns r hx
    exact ⟨iff_of_true ⟨r, rfl⟩ hcut, fun hno => absurd hcut hno⟩
  | error f =>
    obtain ⟨rfl, hno⟩ := hends.of_error hx
    refine ⟨iff_of_false ?_ hno, fun _ => rfl⟩
    rintro ⟨r, hr⟩
    cases hr

/-- A datagram as `UDPRequest` receives it, into a buffer of zeros. -/
def received (d : Bytes) : Packet :=
  ⟨d ++ List.replicate (maxHeartbeatSize - d.length) 0, d.length, by
    rw [List.length_append]
    exact Nat.le_add_right ..⟩

theorem length_received {d : Bytes} (h : d.length ≤ maxHeartbeatSize) :
    (received d).buf.length = maxHeartbeatSize := by
  rw [received, List.length_append, List.length_replicate]
  omega

/-- No chunk and one server added. -/
theorem unmarshal_returns_one :
    ∃ r, amAliveUnMarshal (received [0, 0, 1, 0, 65, 0, 0, 0, 0]) = .ok r := by
  refine (unmarshal_returns_iff _ (length_received (by decide))).1.mpr ⟨by decide, Or.inr ?_⟩
  exact ⟨[[65]], [0, 0, 0, 0], by decide, by decide, Or.inr (by decide)⟩

/-- **Datagrams that are not decoded**: an empty one, one that ends inside an address, and one whose
address is so long that its end wraps in 16 bits. -/
theorem unmarshal_out_of_range :
    amAliveUnMarshal (received []) = .error .bounds
    ∧ amAliveUnMarshal (received [0, 0, 5, 0, 65, 66]) = .error .bounds
    ∧ amAliveUnMarshal (received [0, 0, 255, 255, 65, 66]) = .error .bounds := by
  decide +kernel

end Treeless
