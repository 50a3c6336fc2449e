import Mathlib.Data.Set.Card
import Mathlib.Data.UInt
import ObjectPack.Proofs.Outcome
import ObjectPack.Registry

/-!
# Registries

A registry says of every data unit what the last word about it was.  After any steps, be they registrations,
removals of containers or a file that is written and read again, a data unit is known at a location iff the
location is the last that has been registered for it and its container has not been removed since
(`Registry.Live`).  One step keeps this (`Registry.Tells.apply`), so a run of steps does, and it never
fails: a file is read back as long as its entries can be counted (`Registry.run_tells`).

What the single operations answer follows from it, and so does the file form.

A number is written in groups of seven bits (`Varint.leb128`), and as long as it fits into the groups that
are allowed, reading takes exactly the bytes that writing has made, whatever follows them
(`Varint.decode_encode`).  Entries are read back one after another (`Registry.readEntries_entryBytes`), so
what is read is the registry of the entries that have been written, which knows the same data units as the
one that was written (`Registry.ofBytes_toBytes`).

Entries are written in the order of the bytes of their digests (`Registry.pairwise_toList`), so registries
that know the same have the same file form (`Registry.toBytes_congr`).
-/

namespace ObjectPack

open Outcome

/-! ### Numbers -/

namespace Varint

variable {groups n top : Nat} {rest : Bytes}

/-- A number in groups of seven bits, low groups first, each but the last with its high bit set. -/
def leb128 (n : Nat) : Bytes :=
  if n < 128 then [UInt8.ofNat n] else UInt8.ofNat (n % 128 + 128) :: leb128 (n / 128)

/-- Where a number fits, it takes as many groups as it needs. -/
theorem encode_eq_leb128 (fits : n < 128 ^ (groups + 1)) : encode (groups + 1) n = leb128 n := by
  induction groups generalizing n with
  | zero =>
    rw [encode, leb128, if_pos (by omega), if_pos (by omega)]
  | succ groups ih =>
    have hhigh : n / 128 < 128 ^ (groups + 1) := by
      rw [Nat.div_lt_iff_lt_mul (by decide), ← Nat.pow_succ]
      exact fits
    rw [encode, leb128, ih hhigh]

theorem toNat_group (h : n < 256) : (UInt8.ofNat n).toNat = n := UInt8.toNat_ofNat_of_lt' h

/-- A number that fits into its groups is read back, and what follows it is left. -/
theorem decode_encode (small : top < 128) (fits : n < (top + 1) * 128 ^ groups) :
    decode top (groups + 1) (encode (groups + 1) n ++ rest) = .ok (n, rest) := by
  induction groups generalizing n with
  | zero =>
    have hn : n < 128 := by omega
    rw [encode, if_pos hn, List.singleton_append, decode, toNat_group (by omega), if_pos hn,
      if_neg (by omega)]
  | succ groups ih =>
    rw [encode]
    by_cases hn : n < 128
    · rw [if_pos hn, List.singleton_append, decode, toNat_group (by omega), if_pos hn, if_neg (by omega)]
    · have hhigh : n / 128 < (top + 1) * 128 ^ groups := by
        rw [Nat.div_lt_iff_lt_mul (by decide), Nat.mul_assoc, ← Nat.pow_succ]
        exact fits
      have hsum : n % 128 + 128 - 128 + 128 * (n / 128) = n := by omega
      rw [if_neg hn, List.cons_append, decode, toNat_group (by omega), if_neg (by omega), ih hhigh]
      exact congrArg (fun n => Except.ok (n, rest)) hsum

theorem decode32_encode32 (n : UInt32) : decode32 (encode32 n ++ rest) = .ok (n, rest) := by
  have hfits : n.toNat < (0x0f + 1) * 128 ^ 4 := n.toNat_lt
  rw [decode32, encode32, decode_encode (by decide) hfits]
  exact congrArg (fun n => Except.ok (n, rest)) n.ofNat_toNat

theorem encode32_eq_leb128 (n : UInt32) : encode32 n = leb128 n.toNat :=
  encode_eq_leb128 (Nat.lt_trans n.toNat_lt (by decide))

theorem decode64_encode64 (fits : n < 2 ^ 64) : decode64 (encode64 n ++ rest) = .ok (n, rest) :=
  decode_encode (by decide) fits

theorem encode64_eq_leb128 (fits : n < 2 ^ 64) : encode64 n = leb128 n :=
  encode_eq_leb128 (Nat.lt_trans fits (by decide))

end Varint

/-! ### The order of digests -/

namespace Endian

variable {a b : Bytes}

theorem ofDigits_append (a b : Bytes) : ofDigits (a ++ b) = ofDigits a + 256 ^ a.length * ofDigits b := by
  induction a with
  | nil => simp [ofDigits]
  | cons x rest ih =>
    rw [List.cons_append, ofDigits, ih, ofDigits, List.length_cons, Nat.pow_succ', Nat.mul_add, Nat.mul_assoc,
      Nat.add_assoc]

/-- Numbers are compared by their high digits first. -/
theorem add_mul_lt_iff {base low low' high high' : Nat} (small : low < base) (small' : low' < base) :
    low + base * high < low' + base * high' ↔ high < high' ∨ high = high' ∧ low < low' := by
  rcases Nat.lt_trichotomy high high' with hlt | rfl | hgt
  · have hle := Nat.mul_le_mul_left base (Nat.succ_le_of_lt hlt)
    rw [Nat.mul_succ] at hle
    exact ⟨fun _ => Or.inl hlt, fun _ => by omega⟩
  · omega
  · have hle := Nat.mul_le_mul_left base (Nat.succ_le_of_lt hgt)
    rw [Nat.mul_succ] at hle
    omega

/-- In big-endian order numbers of one width are ordered as their bytes are. -/
theorem decode_big_lt_iff (same : a.length = b.length) : big.decode a < big.decode b ↔ a < b := by
  induction a generalizing b with
  | nil =>
    obtain rfl := List.length_eq_zero_iff.mp same.symm
    simp
  | cons x rest ih =>
    obtain ⟨y, rest', rfl⟩ := List.exists_cons_of_length_eq_add_one same.symm
    have hlength : rest.length = rest'.length := Nat.succ.inj same
    have hlow := ofDigits_lt rest.reverse
    have hlow' := ofDigits_lt rest'.reverse
    have hrest := ih hlength
    rw [List.length_reverse, Nat.pow_eq] at hlow hlow'
    rw [← hlength] at hlow'
    rw [List.cons_lt_cons_iff, UInt8.lt_iff_toNat_lt, ← UInt8.toNat_inj, ← ih hlength, decode, decode]
    simp only [List.reverse_cons, ofDigits_append, List.length_reverse, ← hlength, ofDigits, Nat.mul_zero,
      Nat.add_zero]
    exact add_mul_lt_iff hlow hlow'

end Endian

namespace Digest

variable {a b : Digest}

theorem decode_toBytes (d : Digest) : Endian.big.decode d.toBytes = d.bits.toNat := by
  rw [toBytes, Endian.decode_encode]
  exact Nat.mod_eq_of_lt d.bits.isLt

/-- Digests are ordered as their bytes are. -/
theorem toBytes_lt_iff : a.toBytes < b.toBytes ↔ compare a b = .lt := by
  rw [← Endian.decode_big_lt_iff (by rw [length_toBytes, length_toBytes]), decode_toBytes, decode_toBytes,
    compare_eq, Nat.compare_eq_lt]

end Digest

/-! ### Entries -/

namespace Registry

variable {r r' : Registry} {s : Digest} {l : Location} {rest : Bytes} {entries : List (Digest × Location)}

theorem find?_empty (s : Digest) : empty.find? s = none := Std.TreeMap.getElem?_emptyc

theorem find?_register (r : Registry) (s s' : Digest) (l : Location) :
    (r.register s l).2.find? s' = if s = s' then some l else r.find? s' := by
  rw [find?, register, Std.TreeMap.getElem?_insert]
  exact ite_congr (propext Std.LawfulEqOrd.compare_eq_iff_eq) (fun _ => rfl) fun _ => rfl

theorem mem_toList : (s, l) ∈ r.toList ↔ r.find? s = some l := Std.TreeMap.mem_toList_iff_getElem?_eq_some

/-- The entries stand in the order of the bytes of their digests. -/
theorem pairwise_toList (r : Registry) : r.toList.Pairwise fun a b => a.1.toBytes < b.1.toBytes :=
  Std.TreeMap.ordered_keys_toList.imp Digest.toBytes_lt_iff.mpr

/-- No data unit has two entries. -/
theorem nodup_toList (r : Registry) : (r.toList.map (·.1)).Nodup := by
  refine List.pairwise_map.mpr (r.pairwise_toList.imp fun {a b} hlt heq => ?_)
  rw [heq] at hlt
  exact List.lt_irrefl _ hlt

theorem length_toList (r : Registry) : r.toList.length = r.size := Std.TreeMap.length_toList

/-- Registries that know the same have the same entries. -/
theorem toList_congr (h : ∀ s, r.find? s = r'.find? s) : r.toList = r'.toList :=
  (Std.TreeMap.Equiv.of_forall_constGet?_eq h).toList_eq

theorem toBytes_congr (h : ∀ s, r.find? s = r'.find? s) : r.toBytes = r'.toBytes := by
  rw [toBytes, toBytes, ← length_toList, ← length_toList, toList_congr h]

theorem readEntry_entryBytes (s : Digest) (l : Location) (rest : Bytes) :
    readEntry (entryBytes s l ++ rest) = .ok ((s, l), rest) := by
  have htake : (entryBytes s l ++ rest).take Digest.byteSize = s.toBytes := by
    rw [entryBytes, List.append_assoc, List.append_assoc, List.take_left' s.length_toBytes]
  have hdrop : (entryBytes s l ++ rest).drop Digest.byteSize =
      Varint.encode32 l.container ++ (Varint.encode32 l.entry ++ rest) := by
    rw [entryBytes, List.append_assoc, List.append_assoc, List.drop_left' s.length_toBytes]
  rw [readEntry, htake, Digest.ofBytes?_toBytes, hdrop]
  simp only [Varint.decode32_encode32, bind, Except.bind, pure, Except.pure]

/-- Entries that are read become known one after another. -/
theorem readEntries_entryBytes (entries : List (Digest × Location)) (r : Registry) (rest : Bytes) :
    readEntries entries.length ((entries.flatMap fun (s, l) => entryBytes s l) ++ rest) r =
      .ok (entries.foldl (fun r (s, l) => (r.register s l).2) r) := by
  induction entries generalizing r with
  | nil => rfl
  | cons e entries ih =>
    rw [List.length_cons, List.flatMap_cons, List.append_assoc, readEntries, readEntry_entryBytes]
    exact ih _

/-- Of entries with different digests each becomes known. -/
theorem find?_foldl_register (apart : (entries.map (·.1)).Nodup) (r : Registry) (s : Digest) (l : Location) : (entries.foldl (fun r (s, l) => (r.register s l).2) r).find? s = some l ↔
      (s, l) ∈ entries ∨ s ∉ entries.map (·.1) ∧ r.find? s = some l := by
  induction entries generalizing r with
  | nil => simp
  | cons e entries ih =>
    obtain ⟨hfirst, hrest⟩ := List.nodup_cons.mp apart
    rw [List.foldl_cons, ih hrest, find?_register, List.mem_cons, List.map_cons, List.mem_cons]
    by_cases hs : e.1 = s
    · -- No later entry is for the same digest.
      subst hs
      have hentry : (e.1, l) ∉ entries := fun hmem => hfirst (List.mem_map.mpr ⟨_, hmem, rfl⟩)
      simp [hfirst, hentry, Prod.ext_iff, eq_comm]
    · have hne : (s, l) ≠ e := fun heq => hs (heq ▸ rfl)
      simp [hs, hne, Ne.symm hs]

/-- What is read is a registry that knows the same as the one that has been written. -/
theorem ofBytes_toBytes (fits : r.size < 2 ^ 64) (rest : Bytes) :
    ∃ r', ofBytes (r.toBytes ++ rest) = .ok r' ∧ ∀ s, r'.find? s = r.find? s := by
  refine ⟨ofList r.toList, ?_, ?_⟩
  · have hentries := readEntries_entryBytes r.toList .empty rest
    rw [length_toList] at hentries
    rw [ofBytes, toBytes, List.append_assoc]
    simp only [Varint.decode64_encode64 fits, bind, Except.bind, hentries]
    rfl
  · intro s
    refine Option.ext fun l => ?_
    rw [ofList, find?_foldl_register r.nodup_toList, mem_toList, find?_empty]
    simp

end Registry

namespace Registry

/-! ### Steps -/

/-- A step in the life of a registry. -/
inductive Step where
  | register (signature : Digest) (location : Location)
  | removeContainer (container : UInt32)
  /-- The registry is written to a file, something is put behind it, and the file is read. -/
  | reload (behind : Bytes)

/-- The data unit that a step registers. -/
def Step.signature? : Step → Option Digest
  | .register signature _ => some signature
  | _ => none

/-- Carries out a step. -/
def apply (r : Registry) : Step → Except LoadError Registry
  | .register signature location => .ok (r.register signature location).2
  | .removeContainer container => .ok (r.removeContainer container).2
  | .reload behind => ofBytes (r.toBytes ++ behind)

/-- Carries out steps one after another. -/
def run (r : Registry) (steps : List Step) : Except LoadError Registry := steps.foldlM apply r

/-- Whether a step has nothing to say about a data unit at a location. -/
def Step.Spares (step : Step) (s : Digest) (l : Location) : Prop :=
  (∀ l', step ≠ .register s l') ∧ step ≠ .removeContainer l.container

/-- Whether `l` is the last location that has been registered for `s`, and its container has not been removed
since. -/
def Live (steps : List Step) (s : Digest) (l : Location) : Prop :=
  ∃ before after, steps = before ++ .register s l :: after ∧ ∀ step ∈ after, step.Spares s l

variable {r r' : Registry} {steps : List Step} {step : Step} {s : Digest} {l : Location}

theorem not_live_nil : ¬ Live [] s l := by
  rintro ⟨before, after, h, -⟩
  exact absurd h (by simp)

/-- The last step is a registration of the location, or it spares what has been there. -/
theorem live_concat : Live (steps ++ [step]) s l ↔ step = .register s l ∨ Live steps s l ∧ step.Spares s l := by
  constructor
  · rintro ⟨before, after, h, spares⟩
    rcases List.eq_nil_or_concat' after with rfl | ⟨after, last, rfl⟩
    · exact Or.inl (List.append_inj' h rfl |>.2 |> List.singleton_inj.mp)
    · rw [← List.cons_append, ← List.append_assoc] at h
      obtain ⟨hsteps, hlast⟩ := List.append_inj' h rfl
      obtain rfl := List.singleton_inj.mp hlast
      exact Or.inr ⟨⟨before, after, hsteps, fun step hstep => spares step (List.mem_append_left _ hstep)⟩,
        spares _ (List.mem_append_right _ (List.mem_singleton_self _))⟩
  · rintro (rfl | ⟨⟨before, after, rfl, spares⟩, hlast⟩)
    · exact ⟨steps, [], rfl, fun _ hnone => absurd hnone List.not_mem_nil⟩
    · refine ⟨before, after ++ [step], by simp, fun other hother => ?_⟩
      rcases List.mem_append.mp hother with hold | hnew
      · exact spares other hold
      · exact List.mem_singleton.mp hnew ▸ hlast

/-- Only what has been registered is known. -/
theorem Live.registered (h : Live steps s l) : s ∈ steps.filterMap Step.signature? := by
  obtain ⟨before, after, rfl, -⟩ := h
  simp [Step.signature?]

/-! ### Removing containers -/

theorem toList_removeContainer (r : Registry) (c : UInt32) :
    (r.removeContainer c).2.toList = r.toList.filter fun e => e.2.container ≠ c := Std.TreeMap.toList_filter

theorem find?_removeContainer (r : Registry) (c : UInt32) (s : Digest) (l : Location) :
    (r.removeContainer c).2.find? s = some l ↔ r.find? s = some l ∧ l.container ≠ c := by
  rw [← mem_toList, ← mem_toList, toList_removeContainer, List.mem_filter, decide_eq_true_eq]

/-- As many entries are told as are in the container. -/
theorem removeContainer_fst (r : Registry) (c : UInt32) :
    (r.removeContainer c).1 = (r.toList.filter fun e => e.2.container = c).length := by
  have hkept := congrArg List.length (r.toList_removeContainer c)
  have hsplit := List.length_eq_length_filter_add (l := r.toList) fun e => e.2.container = c
  rw [length_toList] at hkept hsplit
  show r.size - (r.removeContainer c).2.size = _
  simp only [decide_not] at hkept
  omega

/-- Entries are counted by their data units. -/
theorem ncard_signatures {entries : List (Digest × Location)} (sub : entries.Sublist r.toList)
    {p : Digest → Location → Prop} (mem : ∀ s l, (s, l) ∈ entries ↔ p s l) :
    {s | ∃ l, p s l}.ncard = entries.length := by
  have hnodup : (entries.map (·.1)).Nodup := r.nodup_toList.sublist (sub.map _)
  have hset : {s | ∃ l, p s l} = ((entries.map (·.1)).toFinset : Set Digest) := by
    ext s
    simp [mem]
  rw [hset, Set.ncard_coe_finset, List.toFinset_card_of_nodup hnodup, List.length_map]

/-! ### Runs -/

/-- Whether a registry tells what is live after some steps. -/
def Tells (r : Registry) (steps : List Step) : Prop := ∀ s l, r.find? s = some l ↔ Live steps s l

theorem tells_empty : Tells .empty [] := by
  intro s l
  rw [find?_empty]
  exact ⟨fun h => absurd h (by simp), fun h => absurd h not_live_nil⟩

theorem Tells.mem_toList (h : r.Tells steps) : (s, l) ∈ r.toList ↔ Live steps s l :=
  Registry.mem_toList.trans (h s l)

theorem Tells.register (h : r.Tells steps) (s : Digest) (l : Location) :
    (r.register s l).2.Tells (steps ++ [.register s l]) := by
  intro s' l'
  rw [find?_register, live_concat, ← h s' l']
  by_cases hs : s = s'
  · subst hs
    simp [Step.Spares]
  · simp [Step.Spares, hs]

theorem Tells.removeContainer (h : r.Tells steps) (c : UInt32) :
    (r.removeContainer c).2.Tells (steps ++ [.removeContainer c]) := by
  intro s l
  rw [find?_removeContainer, live_concat, h s l]
  simp [Step.Spares, eq_comm]

/-- What is read back knows the same, and a file is no news. -/
theorem Tells.reload (h : r.Tells steps) (same : ∀ s, r'.find? s = r.find? s) (behind : Bytes) :
    r'.Tells (steps ++ [.reload behind]) := by
  intro s l
  rw [same, live_concat, h s l]
  simp [Step.Spares]

/-- No more entries are there than data units have been registered. -/
theorem Tells.size_le (h : r.Tells steps) : r.size ≤ (steps.filterMap Step.signature?).toFinset.card := by
  rw [← length_toList, ← List.length_map (·.1), ← List.toFinset_card_of_nodup r.nodup_toList]
  refine Finset.card_le_card fun s hs => ?_
  obtain ⟨⟨s, l⟩, hmem, rfl⟩ := List.mem_map.mp (List.mem_toFinset.mp hs)
  exact List.mem_toFinset.mpr (h.mem_toList.mp hmem).registered

/-- A step succeeds as long as the entries can be counted, and keeps what is told up to date. -/
theorem Tells.apply (h : r.Tells steps) (fits : r.size < 2 ^ 64) (step : Step) :
    ∃ r', r.apply step = .ok r' ∧ r'.Tells (steps ++ [step]) := by
  cases step with
  | register s l => exact ⟨_, rfl, h.register s l⟩
  | removeContainer c => exact ⟨_, rfl, h.removeContainer c⟩
  | reload behind =>
    obtain ⟨r', hread, hsame⟩ := ofBytes_toBytes fits behind
    exact ⟨r', hread, h.reload hsame behind⟩

theorem run_concat (r : Registry) (steps : List Step) (step : Step) :
    r.run (steps ++ [step]) = r.run steps >>= fun r => r.apply step := by
  simp [run, List.foldlM_append]

/-- A run succeeds as long as what is registered can be counted, and tells what is live. -/
theorem exists_run (fits : (steps.filterMap Step.signature?).toFinset.card < 2 ^ 64) :
    ∃ r, run .empty steps = .ok r ∧ r.Tells steps := by
  induction steps using List.reverseRecOn with
  | nil => exact ⟨.empty, rfl, tells_empty⟩
  | append_singleton steps step ih =>
    have hle : (steps.filterMap Step.signature?).toFinset.card ≤
        ((steps ++ [step]).filterMap Step.signature?).toFinset.card := by
      refine Finset.card_le_card fun s hs => ?_
      rw [List.filterMap_append, List.toFinset_append]
      exact Finset.mem_union_left _ hs
    obtain ⟨r, hrun, htells⟩ := ih (Nat.lt_of_le_of_lt hle fits)
    have hsize := Nat.lt_of_le_of_lt (Nat.le_trans htells.size_le hle) fits
    obtain ⟨r', happly, htells'⟩ := htells.apply hsize step
    exact ⟨r', by rw [run_concat, hrun]; exact happly, htells'⟩

/-! ### The map that a history makes -/

/-- A registry is a faithful map, whatever has happened to it, as long as a 64-bit number counts the data units that
have been registered.  The steps succeed, and afterwards a data unit is known at the last location that has been
registered for it, unless its container has been removed since.  Registering tells the location that is replaced;
removing a container tells how many data units are dropped and leaves all others; the size counts the data units
that are known.  A file with anything behind it is read as an equal registry.  It holds the number of entries
and then, in the order of the bytes of the digests, the digest and the two numbers of each, the numbers in groups
of seven bits; so registries that know the same have the same file. -/
theorem run_tells (fits : (steps.filterMap Step.signature?).toFinset.card < 2 ^ 64) :
    ∃ r, run .empty steps = .ok r ∧
      (∀ s l, r.find? s = some l ↔ Live steps s l) ∧
      (∀ s l l', (r.register s l').1 = some l ↔ Live steps s l) ∧
      (∀ c, (r.removeContainer c).1 = {s | ∃ l, Live steps s l ∧ l.container = c}.ncard ∧
        ∀ s l, (r.removeContainer c).2.find? s = some l ↔ Live steps s l ∧ l.container ≠ c) ∧
      r.size = {s | ∃ l, Live steps s l}.ncard ∧
      (∀ behind, ∃ r', ofBytes (r.toBytes ++ behind) = .ok r' ∧ (r' == r) = true ∧
        ∀ s, r'.find? s = r.find? s) ∧
      (∃ entries : List (Digest × Location), (entries.Pairwise fun a b => a.1.toBytes < b.1.toBytes) ∧
        (∀ s l, (s, l) ∈ entries ↔ Live steps s l) ∧
        r.toBytes = Varint.leb128 entries.length ++ entries.flatMap fun (s, l) =>
          s.toBytes ++ Varint.leb128 l.container.toNat ++ Varint.leb128 l.entry.toNat) ∧
      ∀ r' : Registry, (∀ s, r'.find? s = r.find? s) → r'.toBytes = r.toBytes := by
  obtain ⟨r, hrun, htells⟩ := exists_run fits
  have hsize : r.size < 2 ^ 64 := Nat.lt_of_le_of_lt htells.size_le fits
  refine ⟨r, hrun, htells, fun s l l' => htells s l, fun c => ⟨?_, fun s l => ?_⟩, ?_, fun behind => ?_,
    ⟨r.toList, r.pairwise_toList, fun s l => htells.mem_toList, ?_⟩, fun r' => toBytes_congr⟩
  · rw [removeContainer_fst, ncard_signatures List.filter_sublist fun s l => ?_]
    rw [List.mem_filter, htells.mem_toList, decide_eq_true_eq]
  · rw [find?_removeContainer, htells s l]
  · rw [ncard_signatures (List.Sublist.refl _) fun s l => htells.mem_toList, length_toList]
  · obtain ⟨r', hread, hsame⟩ := ofBytes_toBytes hsize behind
    have hequal : (r'.toList == r.toList) = true := beq_iff_eq.mpr (toList_congr hsame)
    exact ⟨r', hread, hequal, hsame⟩
  · rw [toBytes, length_toList, Varint.encode64_eq_leb128 hsize]
    simp only [entryBytes, Varint.encode32_eq_leb128]

/-- Two data units in one container, one of which moves to another before the container is removed; the file is
read twice. -/
def edits : List Step :=
  [.register ⟨1⟩ ⟨0xffffffff, 5⟩, .register ⟨2⟩ ⟨0xffffffff, 0xffffffff⟩, .register ⟨1⟩ ⟨3, 200⟩, .reload [0xff],
    .removeContainer 0xffffffff, .reload []]

theorem live_edits {s : Digest} {l : Location} : Live edits s l ↔ s = ⟨1⟩ ∧ l = ⟨3, 200⟩ := by
  rw [show edits = [] ++ [.register ⟨1⟩ ⟨0xffffffff, 5⟩] ++ [.register ⟨2⟩ ⟨0xffffffff, 0xffffffff⟩]
    ++ [.register ⟨1⟩ ⟨3, 200⟩] ++ [.reload [0xff]] ++ [.removeContainer 0xffffffff] ++ [.reload []] from rfl]
  simp only [live_concat, not_live_nil, Step.Spares]
  grind

/-- The one that has moved is left. -/
theorem run_tells_edits : (edits.filterMap Step.signature?).toFinset.card < 2 ^ 64 ∧
    ∃ r, run .empty edits = .ok r ∧ r.find? ⟨1⟩ = some ⟨3, 200⟩ ∧ r.find? ⟨2⟩ = none ∧ r.size = 1 := by
  have hfits : (edits.filterMap Step.signature?).toFinset.card < 2 ^ 64 := by decide
  obtain ⟨r, hrun, hfind, -, -, hsize, -⟩ := run_tells hfits
  refine ⟨hfits, r, hrun, (hfind _ _).mpr (live_edits.mpr ⟨rfl, rfl⟩), ?_, ?_⟩
  · refine Option.eq_none_iff_forall_ne_some.mpr fun l hl => ?_
    exact absurd (live_edits.mp ((hfind _ _).mp hl)).1 (by decide)
  · rw [hsize]
    simp [live_edits]

end Registry

end ObjectPack
