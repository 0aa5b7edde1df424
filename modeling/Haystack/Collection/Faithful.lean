import Haystack.Collection.Catalog

/-!
# What the catalog finds again

The records in the store are those in the maps, as long as they can be read back under the prefix of
the scan. A run keeps that if names are text and not empty, the times can be written, the counter is
written, and the document store does not leave a call half done.
-/

namespace Haystack.Collection

open Option GoMap List

variable {Time : Type} (codec : TimeCodec Time)

/-! ### Keys that are found again -/

/-- The prefix of the scan is that of the keys: the byte is printed as itself, or as a character
whose first byte it is. -/
def Options.Readable (o : Options) : Prop :=
  o.keyTypeRecord < 128 ∨ o.keyTypeRecord = 195

instance (o : Options) : Decidable o.Readable :=
  inferInstanceAs (Decidable (_ ∨ _))

namespace Options

variable {o : Options}

lemma prefix_encodeRecordKey (h : o.Readable) (id : ℤ) :
    o.encodeRecordScanPrefix <+: o.encodeRecordKey id := by
  obtain h | h := h
  · rw [encodeRecordKey, Utf8.utf8EncodeChar_ofUInt8 h]
    exact prefix_append _ _
  · rw [encodeRecordScanPrefix, encodeRecordKey, h,
      show String.utf8EncodeChar (Char.ofUInt8 195) = [195, 131] from by decide]
    exact ⟨131 :: Decimal.itoa id, rfl⟩

lemma not_prefix_encodeIncrIdKey (h : o.keyTypeIncrId ≠ o.keyTypeRecord) :
    ¬ o.encodeRecordScanPrefix <+: o.encodeIncrIdKey := by
  intro hpre
  exact h (by simpa [encodeRecordScanPrefix, encodeIncrIdKey, eq_comm] using hpre)

lemma encodeRecordKey_ne_encodeIncrIdKey (id : ℤ) : o.encodeRecordKey id ≠ o.encodeIncrIdKey := by
  intro h
  have hlen := congrArg length h
  have hchar : 0 < (String.utf8EncodeChar (Char.ofUInt8 o.keyTypeRecord)).length :=
    length_pos_iff.2 String.utf8EncodeChar_ne_nil
  have hid := length_pos_iff.2 (Decimal.itoa_ne_nil id)
  rw [encodeRecordKey, encodeIncrIdKey, length_append, length_singleton] at hlen
  omega

lemma encodeRecordKey_inj {a b : ℤ} (ha : 0 ≤ a ∧ a < 2 ^ 63) (hb : 0 ≤ b ∧ b < 2 ^ 63) :
    o.encodeRecordKey a = o.encodeRecordKey b ↔ a = b := by
  constructor
  · intro h
    exact Decimal.itoa_inj ⟨by omega, ha.2⟩ ⟨by omega, hb.2⟩ (append_cancel_left h)
  · rintro rfl
    rfl

end Options

/-! ### The invariant -/

/-- The records in the store are those in memory, the names are those of the records, and the
counter is above all ids. -/
structure State.Inv (s : State Time) : Prop where
  distinct : s.opts.keyTypeIncrId ≠ s.opts.keyTypeRecord
  readable : s.opts.Readable
  stored : ∀ id r, s.byID.lookup id = some r →
    s.store.lookup (s.opts.encodeRecordKey id) = some (.record (some r)) ∧ r.id = id ∧ r.name ≠ []
  known : ∀ k v, s.store.lookup k = some v →
    k = s.opts.encodeIncrIdKey ∨ ∃ id r, s.byID.lookup id = some r ∧ k = s.opts.encodeRecordKey id
  counter : ∃ n, s.nextId = some n ∧ 0 ≤ n ∧ n < 2 ^ 63 ∧
    ∀ id r, s.byID.lookup id = some r → 0 ≤ id ∧ id < n
  names : ∀ name id,
    s.byName.lookup name = some id ↔ ∃ r, s.byID.lookup id = some r ∧ r.name = name
  acked : ∀ id, s.acked.lookup id = s.byID.lookup id

/-- The records that `New` puts into the maps, in their order. -/
def loadedRecords (o : Options) (store : Store Time) : List (Record Time) :=
  (scan o.encodeRecordScanPrefix store).filterMap fun e => loadedRecord e.2

lemma foldl_pair {α β γ : Type*} (f : β → α → β) (g : γ → α → γ) (l : List α) (b : β) (c : γ) :
    l.foldl (fun m a => (f m.1 a, g m.2 a)) (b, c) = (l.foldl f b, l.foldl g c) := by
  induction l generalizing b c with
  | nil => rfl
  | cons a l ih => exact ih _ _

lemma loadFromStore_eq (o : Options) (store : Store Time) :
    loadFromStore o store =
      (((loadedRecords o store).map fun r => (r.id, r)).foldl (fun m x => m.insert x.1 x.2) ∅,
        ((loadedRecords o store).map fun r => (r.name, r.id)).foldl (fun m x => m.insert x.1 x.2)
          ∅) := by
  rw [List.foldl_map, List.foldl_map, ← foldl_pair, loadedRecords, List.foldl_filterMap,
    loadFromStore]
  congr 1
  funext maps e
  cases loadedRecord e.2 <;> rfl

lemma mem_scan_iff {pre : Bytes} {store : Store Time} {e : Bytes × Value Time} :
    e ∈ scan pre store ↔ pre <+: e.1 ∧ store.lookup e.1 = some e.2 := by
  rw [scan, StableSort.mem_sortBy, List.mem_map]
  constructor
  · rintro ⟨x, hx, rfl⟩
    obtain ⟨hmem, hpre⟩ := List.mem_filter.1 hx
    exact ⟨List.isPrefixOf_iff_prefix.1 hpre, mem_entries_iff.1 hmem⟩
  · rintro ⟨hpre, hlookup⟩
    refine ⟨⟨e.1, e.2⟩, mem_filter.2 ⟨mem_entries_iff.2 hlookup, ?_⟩, rfl⟩
    exact List.isPrefixOf_iff_prefix.2 hpre

namespace State.Inv

variable {s : State Time} (hinv : s.Inv) {r : Record Time}

include hinv

lemma mem_range {id : ℤ} (h : s.byID.lookup id = some r) : 0 ≤ id ∧ id < 2 ^ 63 := by
  obtain ⟨n, -, -, hn, hids⟩ := hinv.counter
  have := hids id r h
  omega

/-- A scanned record is the one in memory that has the key. -/
lemma of_mem_scan {e : Bytes × Value Time} (he : e ∈ scan s.opts.encodeRecordScanPrefix s.store)
    (hr : loadedRecord e.2 = some r) :
    s.byID.lookup r.id = some r ∧ e.1 = s.opts.encodeRecordKey r.id := by
  obtain ⟨hpre, hlookup⟩ := mem_scan_iff.1 he
  obtain hkey | ⟨id, r', hid, hkey⟩ := hinv.known _ _ hlookup
  · rw [hkey] at hpre
    exact absurd hpre (Options.not_prefix_encodeIncrIdKey hinv.distinct)
  · obtain ⟨hstored, hrid, hname⟩ := hinv.stored id r' hid
    rw [hkey, hstored] at hlookup
    rw [← some.inj hlookup, loadedRecord, if_neg hname, some_inj] at hr
    obtain rfl := hr
    rw [hrid]
    exact ⟨hid, hkey⟩

lemma mem_loadedRecords_iff : r ∈ loadedRecords s.opts s.store ↔ s.byID.lookup r.id = some r := by
  rw [loadedRecords, List.mem_filterMap]
  constructor
  · rintro ⟨e, he, hr⟩
    exact (hinv.of_mem_scan he hr).1
  · intro h
    obtain ⟨hstored, -, hname⟩ := hinv.stored r.id r h
    refine ⟨(_, _), mem_scan_iff.2 ⟨Options.prefix_encodeRecordKey hinv.readable r.id, hstored⟩, ?_⟩
    exact if_neg hname

/-- A catalog made anew has the records of the running one. -/
lemma reload_byID (id : ℤ) : s.reload.byID.lookup id = s.byID.lookup id := by
  rw [State.reload, loadFromStore_eq]
  refine lookup_foldl_insert_eq (f := s.byID.lookup) (fun {id r} => ?_) id
  rw [List.mem_map]
  constructor
  · rintro ⟨r, hr, ⟨⟩⟩
    exact hinv.mem_loadedRecords_iff.1 hr
  · intro h
    obtain ⟨-, rfl, -⟩ := hinv.stored id r h
    exact ⟨r, hinv.mem_loadedRecords_iff.2 h, rfl⟩

/-- A catalog made anew has the names of the running one. -/
lemma reload_byName (name : Bytes) : s.reload.byName.lookup name = s.byName.lookup name := by
  rw [State.reload, loadFromStore_eq]
  refine lookup_foldl_insert_eq (f := s.byName.lookup) (fun {name id} => ?_) name
  rw [List.mem_map, hinv.names]
  constructor
  · rintro ⟨r, hr, ⟨⟩⟩
    exact ⟨r, hinv.mem_loadedRecords_iff.1 hr, rfl⟩
  · rintro ⟨r, hr, rfl⟩
    obtain ⟨-, rfl, -⟩ := hinv.stored id r hr
    exact ⟨r, hinv.mem_loadedRecords_iff.2 hr, rfl⟩

end State.Inv

/-! ### What a step does to the invariant -/

namespace State

variable {s s' : State Time}

lemma nextId_congr (hopts : s'.opts = s.opts)
    (h : s'.store.lookup s.opts.encodeIncrIdKey = s.store.lookup s.opts.encodeIncrIdKey) :
    s'.nextId = s.nextId := by
  rw [nextId, nextId, hopts, h]

namespace Inv

/-- The invariant is about what the maps and the store have under each key. -/
lemma of_lookup_eq (hinv : s.Inv) (hopts : s'.opts = s.opts)
    (hstore : ∀ k, s'.store.lookup k = s.store.lookup k)
    (hbyID : ∀ id, s'.byID.lookup id = s.byID.lookup id)
    (hbyName : ∀ name, s'.byName.lookup name = s.byName.lookup name)
    (hacked : ∀ id, s'.acked.lookup id = s.acked.lookup id) : s'.Inv where
  distinct := by rw [hopts]; exact hinv.distinct
  readable := by rw [hopts]; exact hinv.readable
  stored id r h := by
    rw [hopts, hstore]
    exact hinv.stored id r ((hbyID id).symm.trans h)
  known := by simpa only [hopts, hstore, hbyID] using hinv.known
  counter := by simpa only [nextId_congr hopts (hstore _), hbyID] using hinv.counter
  names := by simpa only [hbyID, hbyName] using hinv.names
  acked := by simpa only [hbyID, hacked] using hinv.acked

variable (hinv : s.Inv) {id : ℤ}

include hinv

lemma reload : s.reload.Inv :=
  hinv.of_lookup_eq rfl (fun _ => rfl) hinv.reload_byID hinv.reload_byName fun _ => rfl

/-- A collection has one name. -/
lemma byName_eq_iff {r : Record Time} (hr : s.byID.lookup id = some r) (name : Bytes) :
    s.byName.lookup name = some id ↔ name = r.name := by
  rw [hinv.names, hr]
  simp [eq_comm]

lemma byName_ne_of_none (hid : s.byID.lookup id = none) (name : Bytes) :
    s.byName.lookup name ≠ some id := by
  rw [Ne, hinv.names, hid]
  simp

lemma store_eq_none (hrange : 0 ≤ id ∧ id < 2 ^ 63) (hid : s.byID.lookup id = none) :
    s.store.lookup (s.opts.encodeRecordKey id) = none := by
  rw [eq_none_iff_forall_ne_some]
  intro v hv
  obtain hkey | ⟨id', r, hid', hkey⟩ := hinv.known _ v hv
  · exact Options.encodeRecordKey_ne_encodeIncrIdKey id hkey
  · obtain rfl := (Options.encodeRecordKey_inj hrange (hinv.mem_range hid')).1 hkey
    rw [hid] at hid'
    exact absurd hid' (by simp)

omit hinv in
lemma nextId_advance {n : ℤ} (h0 : 0 ≤ n) (hn : n + 1 < 2 ^ 63) :
    (s.setCounter (n + 1)).nextId = some (n + 1) := by
  rw [nextId, setCounter, AList.lookup_insert]
  exact Decimal.atoi_itoa (by omega) hn

/-- The counter goes on. -/
lemma advance {n : ℤ} (hnext : s.nextId = some n) (hn : n + 1 < 2 ^ 63) :
    (s.setCounter (n + 1)).Inv where
  distinct := hinv.distinct
  readable := hinv.readable
  stored id r h := by
    rw [setCounter, lookup_insert_if, if_neg (Options.encodeRecordKey_ne_encodeIncrIdKey id)]
    exact hinv.stored id r h
  known k v h := by
    by_cases hk : k = s.opts.encodeIncrIdKey
    · exact .inl hk
    · rw [setCounter, lookup_insert_if, if_neg hk] at h
      exact hinv.known k v h
  counter := by
    obtain ⟨m, hm, hm0, -, hids⟩ := hinv.counter
    obtain rfl : m = n := some.inj (hm.symm.trans hnext)
    refine ⟨m + 1, nextId_advance hm0 hn, by omega, hn, fun id r h => ?_⟩
    have := hids id r h
    omega
  names := hinv.names
  acked := hinv.acked

/-- The entries of one id change, in the store and in memory alike. -/
lemma set {e : Option (Record Time)} (he : ∀ r ∈ e, r.id = id ∧ r.name ≠ [])
    (hid : ∀ n, s.nextId = some n → 0 ≤ id ∧ id < n) (hopts : s'.opts = s.opts)
    (hstore : ∀ k, s'.store.lookup k =
      if k = s.opts.encodeRecordKey id then e.map (fun r => .record (some r)) else s.store.lookup k)
    (hbyID : ∀ i, s'.byID.lookup i = if i = id then e else s.byID.lookup i)
    (hacked : ∀ i, s'.acked.lookup i = if i = id then e else s.acked.lookup i) (hnames : ∀ name i,
      s'.byName.lookup name = some i ↔ ∃ r, s'.byID.lookup i = some r ∧ r.name = name) :
    s'.Inv := by
  obtain ⟨n, hnext, hn0, hn63, hids⟩ := hinv.counter
  have hrange := hid n hnext
  constructor
  · rw [hopts]
    exact hinv.distinct
  · rw [hopts]
    exact hinv.readable
  · intro i r h
    rw [hbyID] at h
    rw [hopts, hstore]
    split_ifs at h with heq
    · rw [heq, if_pos rfl, h]
      exact ⟨rfl, he r h⟩
    · have hkey : s.opts.encodeRecordKey i ≠ s.opts.encodeRecordKey id := by
        rw [Ne, Options.encodeRecordKey_inj (hinv.mem_range h) (by omega)]
        exact heq
      rw [if_neg hkey]
      exact hinv.stored i r h
  · intro k v h
    rw [hstore] at h
    rw [hopts]
    split_ifs at h with hk
    · obtain ⟨r, hr, -⟩ := map_eq_some_iff.1 h
      exact .inr ⟨id, r, by rw [hbyID, if_pos rfl, hr], hk⟩
    · obtain hk' | ⟨i, r, hi, hk'⟩ := hinv.known k v h
      · exact .inl hk'
      · have hne : i ≠ id := by
          rintro rfl
          exact hk hk'
        exact .inr ⟨i, r, by rw [hbyID, if_neg hne, hi], hk'⟩
  · refine ⟨n, (nextId_congr hopts ?_).trans hnext, hn0, hn63, fun i r h => ?_⟩
    · rw [hstore, if_neg (Options.encodeRecordKey_ne_encodeIncrIdKey _).symm]
    · rw [hbyID] at h
      split_ifs at h with heq
      · omega
      · exact hids i r h
  · exact hnames
  · intro i
    rw [hacked, hbyID, hinv.acked]

/-- A record comes in under its id and its name, which no other collection has. The name that its
collection had before is given up. -/
lemma put {n : ℤ} (hnext : s.nextId = some n) {r : Record Time} (hid : 0 ≤ r.id ∧ r.id < n)
    (hne : r.name ≠ []) (hfree : ∀ id, s.byName.lookup r.name = some id → id = r.id)
    {byName : GoMap Bytes ℤ}
    (hbyName : ∀ name, byName.lookup name =
      if name = r.name then some r.id
      else if s.byName.lookup name = some r.id then none else s.byName.lookup name) :
    Inv { s with
      store := s.store.insert (s.opts.encodeRecordKey r.id) (.record (some r))
      byID := s.byID.insert r.id r
      byName := byName
      acked := s.acked.insert r.id r } := by
  refine hinv.set (e := some r) (by simpa) (fun m hm => ?_) rfl
    (fun _ => lookup_insert_if ..) (fun _ => lookup_insert_if ..)
    (fun _ => lookup_insert_if ..) fun name id => ?_
  · obtain rfl := some.inj (hm.symm.trans hnext)
    exact hid
  have hold := hinv.names name id
  rw [hbyName, lookup_insert_if]
  by_cases hname : name = r.name
  · subst hname
    by_cases heq : id = r.id
    · simp [heq]
    · have hother := mt hold.2 fun h => heq (hfree id h)
      simpa [heq, Ne.symm heq] using hother
  · by_cases heq : id = r.id
    · subst heq
      simp [hname, Ne.symm hname]
    · rw [if_neg hname, if_neg heq, ← hold]
      split_ifs with hgone
      · simp [hgone, Ne.symm heq]
      · rfl

/-- A collection goes. -/
lemma remove {r : Record Time} (hr : s.byID.lookup id = some r) :
    Inv { s with
      store := s.store.erase (s.opts.encodeRecordKey id)
      byID := s.byID.erase id
      byName := s.byName.erase r.name
      acked := s.acked.erase id } := by
  refine hinv.set (e := none) (by simp) (fun m hm => ?_) rfl (fun _ => lookup_erase_if ..)
    (fun _ => lookup_erase_if ..) (fun _ => lookup_erase_if ..) fun name id' => ?_
  · obtain ⟨n, hn, -, -, hids⟩ := hinv.counter
    obtain rfl := some.inj (hm.symm.trans hn)
    exact hids id r hr
  have hold := hinv.names name id'
  have hname := (hinv.names r.name id).2 ⟨r, hr, rfl⟩
  rw [lookup_erase_if, lookup_erase_if]
  by_cases heq : id' = id
  · subst heq
    by_cases h : name = r.name
    · simp [h]
    · simpa [h] using mt (hinv.byName_eq_iff hr name).1 h
  · rw [if_neg heq, ← hold]
    split_ifs with h
    · subst h
      simp [hname, Ne.symm heq]
    · rfl

end Inv

end State

/-! ### Calls -/

section Calls

variable {codec} {s : State Time}

lemma SameViews.of_inv {s' : State Time} (hinv : s.Inv) (hinv' : s'.Inv) (hbyID : s'.byID = s.byID)
    (hbyName : s'.byName = s.byName) : s.SameViews s' where
  byID := hbyID
  byName := hbyName
  reloadByID id := by rw [hinv.reload_byID, hinv'.reload_byID, hbyID]
  reloadByName name := by rw [hinv.reload_byName, hinv'.reload_byName, hbyName]

/-- A call keeps the invariant, and one that fails changes nothing that can be seen. -/
def Sound (s : State Time) (result : State Time × Bool) : Prop :=
  result.1.Inv ∧ (result.2 = false → s.SameViews result.1)

lemma Sound.refl (hinv : s.Inv) : Sound s (s, false) :=
  ⟨hinv, fun _ => SameViews.of_inv hinv hinv rfl rfl⟩

lemma getIncrementalId_eq {n : ℤ} (hnext : s.nextId = some n) (h0 : 0 ≤ n) (hn : n + 1 < 2 ^ 63) :
    s.getIncrementalId true true = (s.setCounter (n + 1), some n) := by
  rw [State.getIncrementalId, if_pos rfl, hnext]
  simp only [if_true]
  rw [Int.bmod_eq_of_le (by omega) (by omega)]

/-- The record of a new collection is read as it was written. -/
lemma readBack_newRecord {id : ℤ} {name extra : Bytes} {now : Time} (hname : Utf8.Valid name)
    (hnow : codec.readBack now = some now) :
    (Record.readBack codec ⟨id, name, [], now, now, codec.zero, extra⟩) =
      some ⟨id, name, [], now, now, codec.zero, extra⟩ := by
  have hdesc : readBackText [] = [] := rfl
  simp only [Record.readBack, hnow, codec.readBack_zero, bind_some, map_some, hdesc,
    show readBackText name = name from hname]

lemma sound_create (hinv : s.Inv) {name : Bytes} {now : Time} {c : CreateCalls}
    (h : Meets codec s (.create name now c)) : Sound s (s.create codec name now c) := by
  obtain ⟨get, put, persist, docs, rollback⟩ := c
  obtain ⟨hname, hput, hlast, hrollback⟩ := h
  obtain ⟨n, hnext, hn0, hn63, hids⟩ := hinv.counter
  have hlast : n + 1 < 2 ^ 63 := by simpa [hnext] using hlast
  rw [State.create]
  by_cases htaken : (s.byName.lookup name).isSome
  · rw [if_pos htaken]
    exact Sound.refl hinv
  rw [if_neg htaken]
  cases get with
  | false => exact Sound.refl hinv
  | true =>
    obtain rfl : put = true := hput rfl
    have hadvanced := hinv.advance hnext hlast
    rw [getIncrementalId_eq hnext hn0 hlast]
    cases persist with
    | false => exact ⟨hadvanced, fun _ => SameViews.of_inv hinv hadvanced rfl rfl⟩
    | true =>
      have hfresh : s.byID.lookup n = none := by
        rw [eq_none_iff_forall_ne_some]
        intro r hr
        have := hids n r hr
        omega
      cases docs with
      | false =>
        -- the record is taken back, so that the store is as it was but for the counter
        obtain rfl : rollback = true := hrollback rfl rfl
        have hback : (((s.setCounter (n + 1)).persistRecord codec
            ⟨n, name, [], now, now, codec.zero, []⟩ true).deleteRecord n true).Inv := by
          refine hadvanced.of_lookup_eq rfl (fun k => ?_) (fun _ => rfl) (fun _ => rfl) fun _ => rfl
          simp only [State.deleteRecord, State.persistRecord, if_true]
          rw [lookup_erase_if, lookup_insert_if]
          split_ifs with hk
          · rw [hk]
            exact (hadvanced.store_eq_none ⟨hn0, hn63⟩ hfresh).symm
          · rfl
        exact ⟨hback, fun _ => SameViews.of_inv hinv hback rfl rfl⟩
      | true =>
        obtain ⟨hne, hvalid, hnow⟩ := hname rfl rfl
        refine ⟨?_, fun hfail => absurd hfail (by simp)⟩
        simp only [not_true_eq_false, if_false, State.persistRecord, if_true,
          readBack_newRecord hvalid hnow]
        refine @State.Inv.put _ _ hadvanced _ (State.Inv.nextId_advance hn0 hlast)
          ⟨n, name, [], now, now, codec.zero, []⟩ ⟨hn0, Int.lt_succ n⟩ hne ?_ _ fun name' => ?_
        · intro id hid
          exact absurd (isSome_of_eq_some hid) htaken
        · rw [lookup_insert_if]
          exact if_congr Iff.rfl rfl (if_neg (hadvanced.byName_ne_of_none hfresh name')).symm

lemma sound_save (hinv : s.Inv) {r : Record Time} {persist : Bool}
    (h : Meets codec s (.save r persist)) : Sound s (s.save codec r persist) := by
  rw [State.save]
  cases hold : s.byID.lookup r.id with
  | none => exact Sound.refl hinv
  | some old =>
    by_cases htaken : old.name ≠ r.name ∧ (s.byName.lookup r.name).isSome
    · simp only [if_pos htaken]
      exact Sound.refl hinv
    simp only [if_neg htaken]
    cases persist with
    | false => exact Sound.refl hinv
    | true =>
      obtain ⟨hne, hread⟩ := h rfl
      obtain ⟨n, hnext, -, -, hids⟩ := hinv.counter
      have hold' := (hinv.names old.name r.id).2 ⟨old, hold, rfl⟩
      refine ⟨?_, fun hfail => absurd hfail (by simp)⟩
      simp only [not_true_eq_false, if_false, State.persistRecord, hread, if_true]
      refine hinv.put hnext (hids _ _ hold) hne (fun id hid => ?_) fun name => ?_
      · by_cases hrename : old.name = r.name
        · rw [hrename, hid] at hold'
          exact some.inj hold'
        · exact absurd ⟨hrename, isSome_of_eq_some hid⟩ htaken
      · rw [if_congr (hinv.byName_eq_iff hold name) rfl rfl]
        by_cases hrename : old.name = r.name
        · rw [if_neg (not_not.2 hrename), hrename]
          by_cases hname : name = r.name
          · rw [if_pos hname, hname, ← hrename, hold']
          · rw [if_neg hname, if_neg hname]
        · rw [if_pos hrename, lookup_insert_if, lookup_erase_if]

lemma sound_delete (hinv : s.Inv) {id : ℤ} {record docs : Bool}
    (h : Meets codec s (.delete id record docs)) : Sound s (s.delete id record docs) := by
  rw [State.delete]
  cases hr : s.byID.lookup id with
  | none => exact Sound.refl hinv
  | some r =>
    cases record with
    | false => exact Sound.refl hinv
    | true =>
      rw [h rfl]
      exact ⟨hinv.remove hr, fun hfail => absurd hfail (by simp)⟩

lemma sound_run (hinv : s.Inv) {call : Call Time} (h : Meets codec s call) :
    Sound s (s.run codec call) := by
  cases call with
  | create name now c => exact sound_create hinv h
  | save r persist => exact sound_save hinv h
  | delete id record docs => exact @sound_delete _ codec _ hinv _ _ _ h
  | new => exact ⟨hinv.reload, fun hfail => absurd hfail (by simp [State.run])⟩

lemma inv_new {opts : Options} (hopts : opts.withDefaults.Readable)
    (h : new opts (∅ : Store Time) ∅ = some s) : s.Inv := by
  simp only [new] at h
  split_ifs at h with hne
  cases h
  have hload : loadFromStore opts.withDefaults (∅ : Store Time) = (∅, ∅) := rfl
  rw [hload]
  constructor
  · exact hne
  · exact hopts
  · intro id r hr
    exact absurd hr (by simp)
  · intro k v hv
    exact absurd hv (by simp)
  · exact ⟨0, rfl, le_rfl, by norm_num, fun id r hr => absurd hr (by simp)⟩
  · simp
  · simp

lemma State.Inv.finds (hinv : s.Inv) {id : ℤ} {r : Record Time} (h : s.byID.lookup id = some r) :
    s.Finds id r :=
  ⟨h, (hinv.byName_eq_iff h r.name).2 rfl, mem_values_of_lookup h⟩

lemma State.Inv.faithful (hinv : s.Inv) : s.Faithful where
  inverse := hinv.names
  found id r h := by
    rw [hinv.acked] at h
    exact ⟨hinv.finds h, hinv.reload.finds ((hinv.reload_byID id).trans h)⟩

end Calls

/-- Times as years, of which JSON writes those up to 9999. -/
def yearCodec : TimeCodec ℕ where
  zero := 1
  readBack year := if year ≤ 9999 then some year else none
  readBack_zero := rfl

/-- The calls of a `Create` that all succeed. -/
def CreateCalls.succeed : CreateCalls :=
  ⟨true, true, true, true, true⟩

/-- Some calls after which the catalog is not what it promises to be. -/
def Breaks (opts : Options) (calls : List (Call ℕ)) : Prop :=
  ∃ s₀ s, new opts ∅ ∅ = some s₀ ∧
    StepSystem.Run (State.step yearCodec) (fun _ _ => True) s₀ calls s ∧ ¬ s.Faithful

lemma breaks_of_exec {opts : Options} {calls : List (Call ℕ)}
    (h : ((new opts ∅ ∅).bind fun s₀ =>
      StepSystem.exec (State.step yearCodec) (fun _ _ => True) s₀ calls).any
      (fun s => (s.acked.lookup 0).isSome ∧ s.acked.lookup 0 ≠ s.reload.byID.lookup 0 ∨
        s.byName.lookup (Bytes.ofAscii "a") = some 0 ∧
          (s.byID.lookup 0).all fun r => r.name ≠ Bytes.ofAscii "a") = true) :
    Breaks opts calls := by
  obtain ⟨s, hs, hbroken⟩ := (any_eq_true _ _).1 h
  obtain ⟨s₀, hnew, hexec⟩ := bind_eq_some_iff.1 hs
  refine ⟨s₀, s, hnew, .of_exec hexec, fun hfaithful => ?_⟩
  obtain ⟨hacked, hne⟩ | ⟨hname, hother⟩ := of_decide_eq_true hbroken
  · obtain ⟨r, hr⟩ := isSome_iff_exists.1 hacked
    exact hne (hr.trans (hfaithful.found 0 r hr).2.1.symm)
  · obtain ⟨r, hr, hrname⟩ := (hfaithful.inverse _ _).1 hname
    rw [hr] at hother
    exact of_decide_eq_true hother hrname

end Haystack.Collection
