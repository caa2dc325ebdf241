import LuaData.Proofs.Contents
import LuaData.Proofs.Reachable
import LuaData.Proofs.Trail

/-!
# Enumerations of a table that is changed

A table may be written to while it is enumerated, as long as no write makes it rehash. `Walk` is an
enumeration with such writes, and with cells released, between its steps. An enumeration that is on
the way splits the trail of its table into the keys that it has passed and those that are ahead
(`Halfway`), and writes and releases keep them apart. So every step succeeds, no key is returned
twice, and at the end every key that was there all the time has been returned:
`enumeration_is_stable`.
-/

namespace LuaData.Table

variable {hash : Value → UInt64} {hint : Nat} {m n : Moment} {c : Course} {t u w : Table}
  {key value cursor : Value} {returned : List (Value × Value)} {steady : Value → Prop}
  {P R : List Value}

/-! ## Splitting a trail -/

/-- The keys that an enumeration has passed end with the one that it is at; one that has not begun
has passed none. -/
def Passed (cursor : Value) (P : List Value) : Prop :=
  P = [] ∧ cursor = .nil ∨ ∃ B, P = B ++ [cursor.content] ∧ cursor.Stored

namespace Passed

/-- Taking keys off leaves an enumeration where it is, if its key stays. -/
theorem of_sublist {P' : List Value} (h : Passed cursor P) (hsub : P'.Sublist P) (hnodup : P.Nodup)
    (hcursor : cursor.Stored → cursor.content ∈ P') : Passed cursor P' := by
  rcases h with ⟨rfl, rfl⟩ | ⟨B, rfl, hstored⟩
  · exact .inl ⟨List.sublist_nil.mp hsub, rfl⟩
  · obtain ⟨B', last, rfl, hB', hlast⟩ := List.sublist_append_iff.mp hsub
    refine .inr ⟨B', ?_, hstored⟩
    rcases List.sublist_singleton.mp hlast with rfl | rfl
    · -- The key is not among those before it.
      have hmem : cursor.content ∈ B' := by simpa using hcursor hstored
      exact absurd rfl ((List.nodup_append.mp hnodup).2.2 _ (hB'.subset hmem) _ List.mem_cons_self)
    · rfl

/-- One more key on the trail is before or after the key that an enumeration is at. -/
theorem of_grows {L L' : List Value} {x : Value} (h : Passed cursor P) (hL : L = P ++ R)
    (hgrows : Grows L L' x) :
    ∃ P' R', L' = P' ++ R' ∧ Passed cursor P' ∧ P ⊆ P' ∧ ∀ y ∈ P', y ∈ P ∨ y = x := by
  obtain ⟨before, after, hsplit, rfl⟩ := hgrows
  rcases List.append_eq_append_iff.mp (hL.symm.trans hsplit) with
    ⟨ahead, rfl, -⟩ | ⟨last, rfl, rfl⟩
  · refine ⟨P, ahead ++ x :: after, by rw [List.append_assoc], h, fun _ hy ↦ hy, fun _ hy ↦ .inl hy⟩
  · by_cases hlast : last = []
    · subst hlast
      rw [List.append_nil] at h ⊢
      exact ⟨before, x :: R, by rw [List.nil_append], h, fun _ hy ↦ hy, fun _ hy ↦ .inl hy⟩
    · refine ⟨before ++ x :: last, R, by simp, ?_, ?_, ?_⟩
      · rcases h with ⟨hnil, -⟩ | ⟨B, hB, hstored⟩
        · exact absurd (List.append_eq_nil_iff.mp hnil).2 hlast
        · have hconcat := List.dropLast_append_getLast hlast
          rw [← hconcat, ← List.append_assoc] at hB
          have hend : last.getLast hlast = cursor.content := by
            simpa using (List.append_inj' hB rfl).2
          refine .inr ⟨before ++ x :: last.dropLast, ?_, hstored⟩
          rw [List.append_assoc, List.cons_append, ← hend, hconcat]
      · intro y hy
        rcases List.mem_append.mp hy with hy | hy
        · exact List.mem_append.mpr (.inl hy)
        · exact List.mem_append.mpr (.inr (List.mem_cons_of_mem _ hy))
      · intro y hy
        rcases List.mem_append.mp hy with hy | hy
        · exact .inl (List.mem_append.mpr (.inl hy))
        · rcases List.mem_cons.mp hy with rfl | hy
          · exact .inr rfl
          · exact .inl (List.mem_append.mpr (.inr hy))

end Passed

/-! ## An enumeration on the way -/

/-- An enumeration that is on the way has passed the keys `P` of the trail, and the keys `R` are
ahead. -/
structure Halfway (m : Moment) (t : Table) (cursor : Value) (returned : List (Value × Value))
    (steady : Value → Prop) (P R : List Value) : Prop where
  trail : t.trail m.alive = P ++ R
  passed : Passed cursor P
  cursor_short : cursor.Short
  cursor_present : cursor.present m.alive = true
  /-- Only an anchored table is enumerated beyond its array part. -/
  place : t.anchored = true ∨ P <+: t.arrayTrail
  /-- What was returned has been passed, unless it is gone. -/
  visited : ∀ e ∈ returned, e.1.content ∈ P ∨ ¬ e.1.Lasts m.alive
  /-- What was there all the time and has been passed was returned. -/
  reported : ∀ k x : Value, k.normal? = some x → steady k → x ∈ P →
    ∃ e ∈ returned, e.1.content = x
  known : ∀ e ∈ returned, e.1.Stored ∧ e.1.Short ∧ e.1.Named m.fresh
  distinct : returned.Pairwise fun e f ↦ e.1.content ≠ f.1.content

namespace Halfway

/-- An enumeration that has not begun. -/
theorem start (m : Moment) (t : Table) (steady : Value → Prop) :
    Halfway m t .nil [] steady [] (t.trail m.alive) where
  trail := rfl
  passed := .inl ⟨rfl, rfl⟩
  cursor_short := by
    intro s h
    cases h
  cursor_present := rfl
  place := .inr List.nil_prefix
  visited := List.forall_mem_nil _
  reported := fun _ _ _ _ hx ↦ absurd hx List.not_mem_nil
  known := List.forall_mem_nil _
  distinct := List.Pairwise.nil

/-- Fewer keys were there all the time. -/
theorem mono {steady' : Value → Prop} (h : Halfway m t cursor returned steady P R)
    (hsteady : ∀ k, steady' k → steady k) : Halfway m t cursor returned steady' P R :=
  { h with reported := fun k x hk hk' ↦ h.reported k x hk (hsteady k hk') }

/-- What is gone does not come back. -/
theorem visited_of_le (h : Halfway m t cursor returned steady P R) (hle : m ≤ n) :
    ∀ e ∈ returned, e.1.content ∈ P ∨ ¬ e.1.Lasts n.alive := fun e he ↦
  (h.visited e he).imp id fun hgone hlasts ↦ hgone (hlasts.of_le hle (h.known e he).2.2)

/-- What was returned stays known. -/
theorem known_of_le (h : Halfway m t cursor returned steady P R) (hle : m ≤ n) :
    ∀ e ∈ returned, e.1.Stored ∧ e.1.Short ∧ e.1.Named n.fresh := fun e he ↦
  ⟨(h.known e he).1, (h.known e he).2.1, (h.known e he).2.2.mono (Moment.fresh_le hle)⟩

/-- In the array part an enumeration stays where it is, whatever happens to the hash part. -/
theorem extend (h : Halfway m t cursor returned steady P R) (hle : m ≤ n)
    (hplace : P <+: t.arrayTrail) (harray : t.arrayTrail <+: u.arrayTrail)
    (hcursor : cursor.present n.alive = true) :
    ∃ R', Halfway n u cursor returned steady P R' := by
  obtain ⟨ahead, hahead⟩ := hplace.trans harray
  refine ⟨ahead ++ u.hashTrail n.alive, ?_, h.passed, h.cursor_short, hcursor,
    .inr (hplace.trans harray), h.visited_of_le hle, h.reported, h.known_of_le hle, h.distinct⟩
  rw [Table.trail, ← hahead, List.append_assoc]

/-- Keys are taken off the trail of an anchored table. -/
theorem shrink (h : Halfway m t cursor returned steady P R) (hs : t.Sound hash m)
    (hu : u.Sound hash n) (hle : m ≤ n) (hsize : t.array.size < 2 ^ 63)
    (hanchored : t.anchored = true) (hshrinks : Shrinks m n t u)
    (hcursor : cursor.present n.alive = true) :
    ∃ P' R', Halfway n u cursor returned steady P' R' := by
  have hnodup := hs.trail_nodup hsize
  rw [h.trail] at hnodup
  obtain ⟨hP, -, hdisjoint⟩ := List.nodup_append.mp hnodup
  have hsub := hshrinks.trail_sublist
  rw [h.trail] at hsub
  obtain ⟨P', R', htrail, hP', hR'⟩ := List.sublist_append_iff.mp hsub
  -- What has been passed and lasts is still behind.
  have hkept : ∀ k : Value, k.Short → k.Lasts n.alive → k.content ∈ P → k.content ∈ P' := by
    intro k hshort hlasts hmem
    have hmem' := hshrinks.mem_trail hs hu hanchored hshort hlasts
      (h.trail ▸ List.mem_append.mpr (.inl hmem))
    rw [htrail] at hmem'
    rcases List.mem_append.mp hmem' with hbehind | hahead
    · exact hbehind
    · exact absurd rfl (hdisjoint _ hmem _ (hR'.subset hahead))
  refine ⟨P', R', htrail, h.passed.of_sublist hP' hP ?_, h.cursor_short, hcursor,
    .inl (hshrinks.anchored.trans hanchored), ?_, fun k x hk hsteady hmem ↦
    h.reported k x hk hsteady (hP'.subset hmem), h.known_of_le hle, h.distinct⟩
  · intro hstored
    rcases h.passed with ⟨-, rfl⟩ | ⟨B, hB, -⟩
    · exact absurd rfl hstored.ne_nil
    · refine hkept cursor h.cursor_short (.inr hcursor) ?_
      rw [hB]
      exact List.mem_append.mpr (.inr List.mem_cons_self)
  · intro e he
    by_cases hlasts : e.1.Lasts n.alive
    · rcases h.visited_of_le hle e he with hmem | hgone
      · exact .inl (hkept e.1 (h.known e he).2.1 hlasts hmem)
      · exact absurd hlasts hgone
    · exact .inr hlasts

/-- The trail stays as it is. -/
theorem congr (h : Halfway m t cursor returned steady P R) (hanchored : u.anchored = true)
    (htrail : u.trail m.alive = t.trail m.alive) : Halfway m u cursor returned steady P R :=
  { h with
    trail := htrail.trans h.trail
    place := .inl hanchored }

/-- A key that was not there is added to the trail of an anchored table. -/
theorem grow {x : Value} (h : Halfway m t cursor returned steady P R)
    (hanchored : u.anchored = true) (hgrows : Grows (t.trail m.alive) (u.trail m.alive) x)
    (hnew : ∀ k : Value, steady k → k.normal? ≠ some x) :
    ∃ P' R', Halfway m u cursor returned steady P' R' := by
  obtain ⟨P', R', htrail, hpassed, hsubset, hnone⟩ := h.passed.of_grows h.trail hgrows
  refine ⟨P', R', htrail, hpassed, h.cursor_short, h.cursor_present, .inl hanchored, ?_, ?_,
    h.known, h.distinct⟩
  · intro e he
    exact (h.visited e he).imp (fun hmem ↦ hsubset hmem) id
  · intro k y hk hsteady hmem
    rcases hnone _ hmem with hold | rfl
    · exact h.reported k y hk hsteady hold
    · exact absurd hk (hnew k hsteady)

end Halfway

/-! ## What a write does to an enumeration -/

/-- The write is done, or fails, at the first attempt: it does not make the table rehash. -/
def NoRehash (hash : Value → UInt64) (c : Course) (t : Table) (key value : Value) : Prop :=
  ∀ k, key.key? = some k → (t.tryStore hash c.clear c.place k value).1 ≠ .ok false

/-- A write that does not make the table rehash is its first attempt. -/
theorem NoRehash.tryStore_eq {k : Value} {r : Except Error Unit} (h : NoRehash hash c t key value)
    (hkey : key.key? = some k) (hstore : t.store hash c key value = (r, u)) :
    (t.tryStore hash c.clear c.place k value).2 = u := by
  have hfirst := h k hkey
  unfold Table.store storedKey at hstore
  rw [hkey] at hstore
  have hstore' : t.storeKey hash c k value = (r, u) := hstore
  unfold storeKey at hstore'
  generalize t.tryStore hash c.clear c.place k value = attempt at hstore' hfirst ⊢
  obtain ⟨result, w⟩ := attempt
  cases result with
  | error e =>
    cases hstore'
    rfl
  | ok room =>
    cases room with
    | true =>
      cases hstore'
      rfl
    | false => exact absurd rfl hfirst

/-- The stored form of a key is there if the key is. -/
theorem present_of_key? {alive : Ref → Bool} {k : Value} (h : key.key? = some k)
    (hkey : key.present alive = true) : k.present alive = true := by
  rcases eq_or_inline_of_key? h with rfl | ⟨i, rfl⟩
  · exact hkey
  · rfl

namespace Sound

/-- A key that has a value later had one before. -/
theorem get_ne_nil_of_le (hs : t.Sound hash m) (hhash : Value.RespectsEq hash) (hle : m ≤ n)
    (h : t.get (n.context hash) key ≠ .nil) : t.get (m.context hash) key ≠ .nil := by
  cases hkey : key.key? with
  | none => exact absurd (get_of_key?_none _ _ hkey) h
  | some k =>
    intro hnil
    rw [get_of_key? _ _ hkey] at h hnil
    rw [hs.get_later hle hhash (Value.stored_of_key? hkey), hnil, ite_self] at h
    exact h rfl

/-- A key with a value is on the trail. -/
theorem mem_trail_of_get (hs : t.Sound hash m) (hhash : Value.RespectsEq hash)
    (hsize : t.array.size < 2 ^ 63) {x : Value} (hx : key.normal? = some x)
    (hget : t.get (m.context hash) key ≠ .nil) : x ∈ t.trail m.alive := by
  obtain ⟨k, hk, rfl⟩ := Value.normal?_eq_some_iff.mp hx
  rw [get_of_key? _ _ hk] at hget
  obtain ⟨e, he, hcontent⟩ := hs.mem_stops_of_get hhash hsize (Value.stored_of_key? hk) hget
  rw [← map_stops hash, List.mem_map]
  exact ⟨e, he, hcontent⟩

/-- A key whose stop has no value has none. -/
theorem get_of_not_filled (hs : t.Sound hash m) (hhash : Value.RespectsEq hash)
    (hsize : t.array.size < 2 ^ 63) {x : Value} (hx : key.normal? = some x) {e : Value × Value}
    (he : e ∈ t.stops (m.context hash)) (hcontent : e.1.content = x) (hfilled : filled e = false) :
    t.get (m.context hash) key = .nil := by
  obtain ⟨k, hk, rfl⟩ := Value.normal?_eq_some_iff.mp hx
  rw [get_of_key? _ _ hk, hs.get_of_mem_stops hhash hsize he (Value.stored_of_key? hk) hcontent]
  by_contra hne
  rw [filled, Value.isNil_eq_false hne] at hfilled
  cases hfilled

end Sound

namespace Halfway

/-- Time passes while an enumeration is on the way. -/
theorem release (h : Halfway m t cursor returned steady P R) (hs : t.Sound hash m) (hle : m ≤ n)
    (hsize : t.array.size < 2 ^ 63) (hcursor : cursor.present n.alive = true) :
    ∃ P' R', Halfway n t cursor returned steady P' R' := by
  by_cases hanchored : t.anchored = true
  · exact h.shrink hs (hs.later hle) hle hsize hanchored (hs.shrinks_of_le hle) hcursor
  · exact ⟨P, h.extend hle (h.place.resolve_left hanchored) List.prefix_rfl hcursor⟩

/-- A write that does not make the table rehash leaves an enumeration on its way. -/
theorem attempt {o : Moment} {r : Except Error Bool} (h : Halfway m t cursor returned steady P R)
    (hs : t.Sound hash m) (hmn : m ≤ n) (hno : n ≤ o) (hhash : Value.RespectsEq hash)
    (hkey : key.Stored) (hshort : key.Short) (hpresent : key.present o.alive = true)
    (hvalue : value.present o.alive = true) (hcursor : cursor.present o.alive = true)
    (hsteady : ∀ k x : Value, k.normal? = some x → steady k → x ∈ t.trail m.alive)
    (hsize : t.array.size ≤ 2 ^ 62) (husize : u.array.size ≤ 2 ^ 62)
    (hattempt : Attempt hash n o t key value r u) (hr : r ≠ .ok false) :
    ∃ P' R', Halfway o u cursor returned steady P' R' := by
  have hmo := hmn.trans hno
  have hvalueNamed := Value.named_of_present hvalue
  have hu := hattempt.sound hno hhash hkey (Value.named_of_present hpresent) hvalueNamed hsize
  -- The cleared table, at the moment when the value is placed.
  have hready : ∀ {w : Table}, w.Sound hash n → t.makeReady (n.context hash) key value = .ok w →
      Shrinks m o t w := fun hw hready ↦
    have hcleared := (hs.later hmn).shrinks_makeReady hready
    ((hs.shrinks_of_le hmn).trans hcleared hs hmn (le_refl n)).trans (hw.shrinks_of_le hno)
      hs hmn hno
  cases hattempt with
  | full => exact absurd rfl hr
  | noSlot hw _ _ _ _ hclear =>
    have hshrinks := hready hw hclear
    by_cases hanchored : t.anchored = true
    · exact h.shrink hs hu hmo (by omega) hanchored hshrinks hcursor
    · refine ⟨P, h.extend hmo (h.place.resolve_left hanchored) ?_ hcursor⟩
      exact arrayTrail_isPrefix (Nat.le_of_eq (congrArg Array.size hshrinks.array).symm)
  | @stored w _ hw hcleared hplaced hclear =>
    have hshrinks := hready hw hclear
    have hwsize : w.array.size ≤ 2 ^ 62 := hshrinks.array ▸ hsize
    have hw' := hw.later hno
    by_cases hanchored : t.anchored = true
    · have hwanchored := hshrinks.anchored.trans hanchored
      have huanchored := (hplaced.frame hw' hhash hvalueNamed hwsize).anchored.trans hwanchored
      obtain ⟨P', R', h'⟩ := h.shrink hs hw' hmo (by omega) hanchored hshrinks hcursor
      rcases hplaced.trail_cases hw' hhash hkey hshort hpresent hvalueNamed hwsize hwanchored with
        hsame | hgrows
      · exact ⟨P', R', h'.congr huanchored hsame⟩
      · refine h'.grow huanchored hgrows fun k hk hx ↦ ?_
        -- A key that was there all the time is still on the trail, so it is not added.
        have hmem := hshrinks.mem_trail hs hw' hanchored hshort (.inr hpresent) (hsteady k _ hx hk)
        have hnodup := hu.trail_nodup (by omega)
        obtain ⟨before, after, hbefore, hafter⟩ := hgrows
        rw [hbefore] at hmem
        rw [hafter, List.nodup_middle] at hnodup
        exact (List.nodup_cons.mp hnodup).1 hmem
    · refine ⟨P, h.extend hmo (h.place.resolve_left hanchored) ?_ hcursor⟩
      rw [← arrayTrail_congr (congrArg Array.size hshrinks.array)]
      exact hplaced.arrayTrail_isPrefix hw' hhash hvalueNamed hwsize

end Halfway

/-- No string that is too long for a dead slot to keep has a value. -/
def NoLongKeys (hash : Value → UInt64) (m : Moment) (t : Table) : Prop :=
  ∀ k : Value, k.Stored → t.get (m.context hash) k ≠ .nil → k.Short

/-- Equal keys are short together. -/
theorem short_of_content_eq {k l : Value} (h : k.Short) (hcontent : k.content = l.content) :
    l.Short := by
  rcases Value.eq_or_bytes_eq_of_content_eq hcontent with rfl | ⟨s, s', rfl, rfl, hbytes⟩
  · exact h
  · rintro _ ⟨rfl⟩
    exact hbytes ▸ h s rfl

namespace NoLongKeys

/-- Time brings no long keys. -/
theorem of_le (h : t.NoLongKeys hash m) (hs : t.Sound hash m) (hhash : Value.RespectsEq hash)
    (hle : m ≤ n) : t.NoLongKeys hash n := fun k hk hget ↦
  h k hk (hs.get_ne_nil_of_le hhash hle hget)

/-- A write under a short key brings no long keys. -/
theorem attempt {r : Except Error Bool} (h : t.NoLongKeys hash m) (hs : t.Sound hash m)
    (hmn : m ≤ n) (hhash : Value.RespectsEq hash) (hkey : key.Stored) (hshort : key.Short)
    (hpresent : key.present n.alive = true) (hvalue : value.present n.alive = true)
    (hsize : t.array.size ≤ 2 ^ 62) (hattempt : Attempt hash m n t key value r u) :
    u.NoLongKeys hash n := by
  have hcleared' : ∀ {w : Table}, w.Sound hash m → Cleared m.alive t w → w.NoLongKeys hash n := by
    intro w hw hcleared
    refine NoLongKeys.of_le (fun k hk hget ↦ h k hk ?_) hw hhash hmn
    rwa [hs.get_cleared hhash hw hcleared] at hget
  cases hattempt with
  | full hw hcleared => exact hcleared' hw hcleared
  | noSlot hw hcleared => exact hcleared' hw hcleared
  | stored hw hcleared hplaced =>
    intro k hk hget
    rw [hplaced.updated (hw.later hmn) hhash hkey (Value.named_of_present hpresent)
      (Value.named_of_present hvalue) (hcleared.array ▸ hsize) (get_ofEntry_of_present hpresent _)
      (get_ofEntry_of_present hvalue _) k hk] at hget
    split at hget
    · rename_i hcontent
      exact short_of_content_eq hshort hcontent.symm
    · exact hcleared' hw hcleared k hk hget

end NoLongKeys

/-! ## The steps of an enumeration -/

/-- What an enumeration looks at does not depend on whether the table is anchored. -/
theorem trail_handedOut (alive : Ref → Bool) (t : Table) (found : Option (Value × Value)) :
    (t.handedOut found).trail alive = t.trail alive := by
  unfold handedOut
  split
  · split <;> rfl
  · rfl

namespace Halfway

/-- The next key is the first one ahead that has a value. -/
theorem next_eq (h : Halfway m t cursor returned steady P R) (hs : t.Sound hash m)
    (hhash : Value.RespectsEq hash) (hsize : t.array.size < 2 ^ 63) :
    ∃ before after, t.stops (m.context hash) = before ++ after ∧
      before.map (fun e ↦ e.1.content) = P ∧ after.map (fun e ↦ e.1.content) = R ∧
      t.next (m.context hash) cursor =
        .ok (after.find? filled, t.handedOut (after.find? filled)) := by
  have htrail := h.trail
  rw [← map_stops hash] at htrail
  obtain ⟨before, after, hstops, hbefore, hafter⟩ := List.map_eq_append_iff.mp htrail
  refine ⟨before, after, hstops, hbefore, hafter, ?_⟩
  rcases h.passed with ⟨rfl, rfl⟩ | ⟨B, rfl, hstored⟩
  · obtain rfl := List.map_eq_nil_iff.mp hbefore
    rw [hs.next_nil hsize, hstops]
    rfl
  · obtain ⟨init, last, rfl, -, hlast⟩ := List.map_eq_append_iff.mp hbefore
    obtain ⟨e, rest, rfl, hcontent, hrest⟩ := List.map_eq_cons_iff.mp hlast
    obtain rfl := List.map_eq_nil_iff.mp hrest
    rw [List.append_assoc] at hstops
    exact hs.next_eq_of_stop hhash hsize hstops hstored hcontent

/-- A key of the array part is passed within the array part. -/
theorem isPrefix_arrayTrail {B : List Value} {x : Value} (hnodup : (t.trail m.alive).Nodup)
    (htrail : t.trail m.alive = B ++ [x] ++ R) (hx : x ∈ t.arrayTrail) :
    B ++ [x] <+: t.arrayTrail := by
  rcases List.append_eq_append_iff.mp htrail with ⟨ahead, hahead, hhash⟩ | ⟨rest, hrest, -⟩
  · -- The keys of the hash part that are passed would include the key.
    rcases List.eq_nil_or_concat ahead with rfl | ⟨init, y, rfl⟩
    · rw [List.append_nil] at hahead
      rw [hahead]
    · rw [List.concat_eq_append, ← List.append_assoc] at hahead
      have hy : x = y := by simpa using (List.append_inj' hahead rfl).2
      have hmem : x ∈ t.hashTrail m.alive := by
        rw [hhash, hy]
        simp
      exact absurd rfl ((List.nodup_append.mp hnodup).2.2 x hx x hmem)
  · exact ⟨rest, hrest.symm⟩

/-- A table that hands out a key of the hash part is anchored, and a key of the array part is passed
within it. -/
theorem place_handedOut {B : List Value} {e : Value × Value} (hsize : t.array.size < 2 ^ 63)
    (hnodup : (t.trail m.alive).Nodup) (htrail : t.trail m.alive = B ++ [e.1.content] ++ R) :
    (t.handedOut (some e)).anchored = true ∨
      B ++ [e.1.content] <+: (t.handedOut (some e)).arrayTrail := by
  show (if t.index? e.1 = none then { t with anchored := true } else t).anchored = true ∨ _
  by_cases hindex : t.index? e.1 = none
  · rw [if_pos hindex]
    exact .inl rfl
  · refine .inr ?_
    simp only [handedOut, if_neg hindex]
    obtain ⟨i, hi⟩ := Option.ne_none_iff_exists'.mp hindex
    exact isPrefix_arrayTrail hnodup htrail (content_mem_arrayTrail hsize hi)

/-- A step of an enumeration passes the keys without a value and the one that it returns. -/
theorem next (h : Halfway m t cursor returned steady P R) (hs : t.Sound hash m)
    (hhash : Value.RespectsEq hash) (hsize : t.array.size < 2 ^ 63) (hlong : t.NoLongKeys hash m)
    (hsteady : ∀ k, steady k → t.get (m.context hash) k ≠ .nil) {e : Value × Value}
    (hnext : t.next (m.context hash) cursor = .ok (some e, u))
    (hpresent : e.1.present m.alive = true) :
    ∃ P' R', Halfway m u e.1 (returned ++ [e]) steady P' R' := by
  obtain ⟨before, after, hstops, hbefore, hafter, heq⟩ := h.next_eq hs hhash hsize
  rw [heq] at hnext
  obtain ⟨hfind, rfl⟩ := Prod.mk.inj (Except.ok.inj hnext)
  obtain ⟨hfilled, skipped, ahead, rfl, hskipped⟩ := List.find?_eq_some_iff_append.mp hfind
  have hmem : e ∈ t.stops (m.context hash) := by
    rw [hstops]
    simp
  have hstored := hs.stored_of_mem_stops hmem
  have hget := hs.get_of_mem_stops hhash hsize hmem hstored rfl
  have hshort : e.1.Short := by
    refine hlong e.1 hstored ?_
    rw [hget]
    intro hnil
    rw [filled, hnil] at hfilled
    cases hfilled
  have hnodup := hs.trail_nodup hsize
  have htrail : t.trail m.alive = P ++ skipped.map (fun e ↦ e.1.content) ++ [e.1.content] ++
      ahead.map (fun e ↦ e.1.content) := by
    rw [← map_stops hash, hstops, List.map_append, hbefore, List.map_append, List.map_cons]
    simp only [List.append_assoc, List.cons_append, List.nil_append]
  have hnew : e.1.content ∉ P := by
    intro hP
    rw [htrail, List.append_assoc, List.append_assoc] at hnodup
    refine (List.nodup_append.mp hnodup).2.2 _ hP e.1.content ?_ rfl
    simp
  rw [hfind]
  refine ⟨P ++ skipped.map (fun e ↦ e.1.content) ++ [e.1.content],
    ahead.map (fun e ↦ e.1.content), ?_, .inr ⟨_, rfl, hstored⟩, hshort, hpresent,
    place_handedOut hsize hnodup htrail, ?_, ?_, ?_, ?_⟩
  · rw [trail_handedOut, htrail]
  · intro f hf
    rcases List.mem_append.mp hf with hf | hf
    · refine (h.visited f hf).imp (fun hP ↦ ?_) id
      exact List.mem_append.mpr (.inl (List.mem_append.mpr (.inl hP)))
    · obtain rfl := List.mem_singleton.mp hf
      exact .inl (List.mem_append.mpr (.inr List.mem_cons_self))
  · intro k x hx hk hP
    rcases List.mem_append.mp hP with hP | hP
    · rcases List.mem_append.mp hP with hP | hP
      · obtain ⟨f, hf, hcontent⟩ := h.reported k x hx hk hP
        exact ⟨f, List.mem_append.mpr (.inl hf), hcontent⟩
      · -- What is skipped has no value.
        obtain ⟨f, hf, hcontent⟩ := List.mem_map.mp hP
        have hfmem : f ∈ t.stops (m.context hash) := by
          rw [hstops]
          simp [hf]
        exact absurd (hs.get_of_not_filled hhash hsize hx hfmem hcontent
          (by simpa using hskipped f hf)) (hsteady k hk)
    · exact ⟨e, List.mem_append.mpr (.inr List.mem_cons_self), (List.mem_singleton.mp hP).symm⟩
  · intro f hf
    rcases List.mem_append.mp hf with hf | hf
    · exact h.known f hf
    · obtain rfl := List.mem_singleton.mp hf
      exact ⟨hstored, hshort, Value.named_of_present hpresent⟩
  · rw [List.pairwise_append]
    refine ⟨h.distinct, List.pairwise_singleton _ _, ?_⟩
    intro f hf g hg hcontent
    obtain rfl := List.mem_singleton.mp hg
    rcases h.visited f hf with hP | hgone
    · exact hnew (hcontent ▸ hP)
    · exact hgone (Value.Lasts.of_content_eq (.inr hpresent) hshort hcontent.symm)

end Halfway

/-! ## Walks -/

/-- An enumeration that goes on from the key that it returned last, which its caller keeps, with the
keys that had a value all the time. In between cells are released and the table is written to, by
keys and values that the caller keeps during the write. None of the strings that are keys is too
long for a dead slot to keep, and no write makes the table rehash. -/
inductive Walk (hash : Value → UInt64) (hint : Nat) :
    Moment → Table → Value → List (Value × Value) → (Value → Prop) → Prop
  | start {m : Moment} {t : Table} (h : Reaches hash hint m t) (hsize : t.array.size ≤ 2 ^ 62)
      (hshort : ∀ e ∈ t.entries (m.context hash), e.1.Short) :
      Walk hash hint m t .nil [] fun k ↦ t.get (m.context hash) k ≠ .nil
  | release {m n : Moment} {t : Table} {cursor : Value} {returned : List (Value × Value)}
      {steady : Value → Prop} (h : Walk hash hint m t cursor returned steady) (hle : m ≤ n)
      (hcursor : cursor.present n.alive = true) :
      Walk hash hint n t cursor returned fun k ↦ steady k ∧ t.get (n.context hash) k ≠ .nil
  | store {m : Moment} {c : Course} {t u : Table} {cursor key value : Value}
      {returned : List (Value × Value)} {steady : Value → Prop} {r : Except Error Unit}
      (h : Walk hash hint m t cursor returned steady) (hle : m ≤ c.clear) (hshort : key.Short)
      (hkey : key.present c.place.alive = true) (hvalue : value.present c.place.alive = true)
      (hcursor : cursor.present c.last.alive = true) (hrehash : NoRehash hash c t key value)
      (hstore : t.store hash c key value = (r, u)) (hsize : u.array.size ≤ 2 ^ 62) :
      Walk hash hint c.last u cursor returned fun k ↦
        steady k ∧ u.get (c.last.context hash) k ≠ .nil
  | next {m : Moment} {t u : Table} {cursor : Value} {returned : List (Value × Value)}
      {steady : Value → Prop} {e : Value × Value} (h : Walk hash hint m t cursor returned steady)
      (hnext : t.next (m.context hash) cursor = .ok (some e, u))
      (hpresent : e.1.present m.alive = true) : Walk hash hint m u e.1 (returned ++ [e]) steady

/-- What holds all along a walk. -/
structure OnTheWay (hash : Value → UInt64) (m : Moment) (t : Table) (cursor : Value)
    (returned : List (Value × Value)) (steady : Value → Prop) : Prop where
  sound : t.Sound hash m
  size : t.array.size ≤ 2 ^ 62
  noLongKeys : t.NoLongKeys hash m
  there : ∀ k, steady k → t.get (m.context hash) k ≠ .nil
  halfway : ∃ P R, Halfway m t cursor returned steady P R

namespace OnTheWay

/-- Time passes. -/
theorem release (h : OnTheWay hash m t cursor returned steady) (hhash : Value.RespectsEq hash)
    (hle : m ≤ n) (hcursor : cursor.present n.alive = true) :
    OnTheWay hash n t cursor returned fun k ↦ steady k ∧ t.get (n.context hash) k ≠ .nil := by
  obtain ⟨P, R, hhalfway⟩ := h.halfway
  have hsize := h.size
  obtain ⟨P', R', hhalfway'⟩ := hhalfway.release h.sound hle (by omega) hcursor
  exact ⟨h.sound.later hle, h.size, h.noLongKeys.of_le h.sound hhash hle, fun _ hk ↦ hk.2,
    P', R', hhalfway'.mono fun _ hk ↦ hk.1⟩

/-- The table is written to. -/
theorem store {r : Except Error Unit} (h : OnTheWay hash m t cursor returned steady)
    (hhash : Value.RespectsEq hash) (hle : m ≤ c.clear) (hshort : key.Short)
    (hkey : key.present c.place.alive = true) (hvalue : value.present c.place.alive = true)
    (hcursor : cursor.present c.last.alive = true) (hrehash : NoRehash hash c t key value)
    (hstore : t.store hash c key value = (r, u)) (hsize : u.array.size ≤ 2 ^ 62) :
    OnTheWay hash c.last u cursor returned
      fun k ↦ steady k ∧ u.get (c.last.context hash) k ≠ .nil := by
  cases hstored : key.key? with
  | none =>
    unfold Table.store storedKey at hstore
    rw [hstored] at hstore
    cases hstore
    exact h.release hhash (hle.trans c.clear_le_last) hcursor
  | some k =>
    have hk := Value.stored_of_key? hstored
    have hkshort : k.Short := by
      rcases eq_or_inline_of_key? hstored with rfl | ⟨i, rfl⟩
      · exact hshort
      · exact nofun
    have hkpresent := present_of_key? hstored hkey
    have hattempt := (h.sound.later hle).tryStore_cases c.clear_le hhash hk
      (Value.named_of_present hvalue) h.size
    rw [hrehash.tryStore_eq hstored hstore] at hattempt
    obtain ⟨P, R, hhalfway⟩ := h.halfway
    have htsize := h.size
    have hsteady : ∀ k x : Value, k.normal? = some x → steady k → x ∈ t.trail m.alive :=
      fun k x hx hk ↦ h.sound.mem_trail_of_get hhash (by omega) hx (h.there k hk)
    have hnamed := (Value.named_of_present hhalfway.cursor_present).mono
      (Moment.fresh_le (hle.trans c.clear_le))
    have hcursor' := Value.present_of_le c.place_le_last hnamed hcursor
    obtain ⟨P', R', hplaced⟩ := hhalfway.attempt h.sound hle c.clear_le hhash hk hkshort hkpresent
      hvalue hcursor' hsteady h.size hsize hattempt (hrehash k hstored)
    have hu := hattempt.sound c.clear_le hhash hk (Value.named_of_present hkpresent)
      (Value.named_of_present hvalue) h.size
    have hlong := (h.noLongKeys.of_le h.sound hhash hle).attempt (h.sound.later hle) c.clear_le
      hhash hk hkshort hkpresent hvalue h.size hattempt
    obtain ⟨P'', R'', hlast⟩ := hplaced.release hu c.place_le_last (by omega) hcursor
    exact ⟨hu.later c.place_le_last, hsize, hlong.of_le hu hhash c.place_le_last, fun _ hk ↦ hk.2,
      P'', R'', hlast.mono fun _ hk ↦ hk.1⟩

/-- A key is returned. -/
theorem next {e : Value × Value} (h : OnTheWay hash m t cursor returned steady)
    (hhash : Value.RespectsEq hash) (hnext : t.next (m.context hash) cursor = .ok (some e, u))
    (hpresent : e.1.present m.alive = true) : OnTheWay hash m u e.1 (returned ++ [e]) steady := by
  obtain ⟨P, R, hhalfway⟩ := h.halfway
  have hsize := h.size
  have hnext' := hhalfway.next h.sound hhash (by omega) h.noLongKeys h.there hnext hpresent
  have hu := h.sound.next hnext
  rcases next_table hnext with rfl | rfl
  · exact ⟨hu.sound, h.size, h.noLongKeys, h.there, hnext'⟩
  · exact ⟨hu.sound, h.size, h.noLongKeys, h.there, hnext'⟩

/-- At the end all keys that were there all the time have been returned. -/
theorem returned_of_end {before after : List (Value × Value)} {k x : Value}
    (h : OnTheWay hash m t cursor returned steady) (hhash : Value.RespectsEq hash)
    (hhalfway : Halfway m t cursor returned steady P R)
    (hstops : t.stops (m.context hash) = before ++ after)
    (hafter : after.map (fun e ↦ e.1.content) = R) (hnone : after.find? filled = none)
    (hx : k.normal? = some x) (hk : steady k) : ∃ e ∈ returned, e.1.content = x := by
  have hsize : t.array.size < 2 ^ 63 := h.size.trans_lt (by decide)
  have hmem := h.sound.mem_trail_of_get hhash hsize hx (h.there k hk)
  rw [hhalfway.trail] at hmem
  rcases List.mem_append.mp hmem with hpassed | hahead
  · exact hhalfway.reported k x hx hk hpassed
  · -- What is ahead has no value.
    rw [← hafter] at hahead
    obtain ⟨e, he, hcontent⟩ := List.mem_map.mp hahead
    have hfilled : filled e = false := by simpa using List.find?_eq_none.mp hnone e he
    exact absurd (h.sound.get_of_not_filled hhash hsize hx (hstops ▸ List.mem_append.mpr (.inr he))
      hcontent hfilled) (h.there k hk)

end OnTheWay

/-- All along a walk an enumeration is on the way. -/
theorem Walk.onTheWay (hhash : Value.RespectsEq hash)
    (h : Walk hash hint m t cursor returned steady) : OnTheWay hash m t cursor returned steady := by
  induction h with
  | @start m t h hsize hshort =>
    have hs := (h.sound hhash).1
    refine ⟨hs, hsize, ?_, fun _ hk ↦ hk, [], t.trail m.alive, .start m t _⟩
    intro k hk hget
    obtain ⟨l, hl, hcontent⟩ := (hs.get_eq_iff hhash (by omega) hk hget).mp rfl
    exact short_of_content_eq (hshort _ hl) hcontent
  | release _ hle hcursor ih => exact ih.release hhash hle hcursor
  | store _ hle hshort hkey hvalue hcursor hrehash hstore hsize ih =>
    exact ih.store hhash hle hshort hkey hvalue hcursor hrehash hstore hsize
  | next _ hnext hpresent ih => exact ih.next hhash hnext hpresent

namespace Sound

/-- A slot with an entry goes on holding its key if that is a string or its cell is alive. -/
theorem key?_of_binding? (hs : t.Sound hash m) {i : Nat} {k v : Value}
    (h : t.arena.binding? m.alive i = some (k, v))
    (hk : k.isString = true ∨ k.present n.alive = true) : t.arena.key? n.alive i = some k := by
  obtain ⟨hkey, hvalue⟩ := Arena.binding?_eq_some_iff.mp h
  cases hstate : t.arena.state i with
  | live handle target =>
    rw [Arena.key?, hstate] at hkey ⊢
    have htarget : handle.target = k := Handle.target_of_get hkey
    show handle.get n.alive = some k
    rw [((hs.fits i).live _ _ hstate).1, htarget]
    rcases hk with hstring | hpresent
    · rw [Handle.ofEntry, hstring, Bool.not_true, Bool.and_false]
      rfl
    · exact get_ofEntry_of_present hpresent _
  | dead handle => simp [Arena.value?, hstate] at hvalue
  | free => simp [Arena.value?, hstate] at hvalue

/-- After the way was cleared, a key that had a value is one of the array part or has a slot. -/
theorem slot?_of_get {k : Value} (hs : t.Sound hash m) (hhash : Value.RespectsEq hash) (hmn : m ≤ n)
    (hw : w.Sound hash m) (hcleared : Cleared m.alive t w) (hstored : key.key? = some k)
    (hkey : key.present n.alive = true) (hget : t.get (m.context hash) key ≠ .nil)
    (hindex : w.index? k = none) : ∃ i, w.slot? (n.context hash) k = some i := by
  have hk := Value.stored_of_key? hstored
  rw [← hs.get_cleared hhash hw hcleared, get_of_key?_some _ _ hstored, hindex] at hget
  have hne : w.getFromHash (m.context hash) k ≠ .nil := hget
  obtain ⟨i, l, hentry, hcontent⟩ := hw.entry_of_getFromHash hhash hk hne
  have hl : l.isString = true ∨ l.present n.alive = true := by
    rcases Value.eq_or_bytes_eq_of_content_eq hcontent with rfl | ⟨s, -, rfl, -⟩
    · exact .inr (present_of_key? hstored hkey)
    · exact .inl rfl
  have hkey? := hw.key?_of_binding? hentry hl
  exact ⟨i, ((hw.later hmn).slot?_eq_some_iff hhash hk).mpr ⟨l, hkey?, hcontent⟩⟩

/-- A write to a key that has a value does not make the table rehash. -/
theorem noRehash_of_get (hs : t.Sound hash m) (hhash : Value.RespectsEq hash) (hle : m ≤ c.clear)
    (hsize : t.array.size ≤ 2 ^ 62) (hkey : key.present c.place.alive = true)
    (hvalue : value.present c.place.alive = true)
    (hget : t.get (c.clear.context hash) key ≠ .nil) : NoRehash hash c t key value := by
  intro k hstored hfull
  have hclear := hs.later hle
  have hattempt := hclear.tryStore_cases c.clear_le hhash (Value.stored_of_key? hstored)
    (Value.named_of_present hvalue) hsize
  generalize t.tryStore hash c.clear c.place k value = attempt at hattempt hfull
  obtain ⟨r, w⟩ := attempt
  subst hfull
  cases hattempt with
  | full hw hcleared hindex _ hslot =>
    obtain ⟨i, hi⟩ := hclear.slot?_of_get hhash c.clear_le hw hcleared hstored hkey hget hindex
    rw [hslot] at hi
    cases hi

end Sound

/-- Every step of a walk succeeds and returns a key with its value, no key is returned twice, and at
the end every key that had a value all the time has been returned. A write to a key that has a value
never makes a table rehash, so it may always be made on the way. -/
theorem enumeration_is_stable (hhash : Value.RespectsEq hash) :
    (∀ m t cursor returned steady, Walk hash hint m t cursor returned steady →
      (returned.Pairwise fun e f ↦ e.1.normal? ≠ f.1.normal?) ∧
      ∃ found u, t.next (m.context hash) cursor = .ok (found, u) ∧
        (∀ e, found = some e → t.get (m.context hash) e.1 = e.2 ∧ e.2 ≠ .nil) ∧
        (found = none → ∀ k, steady k → ∃! e, e ∈ returned ∧ e.1.normal? = k.normal?)) ∧
    (∀ m t, Reaches hash hint m t → t.array.size ≤ 2 ^ 62 → ∀ (c : Course) (key value : Value),
      m ≤ c.clear → key.present c.place.alive = true → value.present c.place.alive = true →
      t.get (c.clear.context hash) key ≠ .nil → NoRehash hash c t key value) := by
  refine ⟨fun m t cursor returned steady hwalk ↦ ?_,
    fun m t h hsize c key value hle hkey hvalue ↦ ?_⟩
  · have hway := hwalk.onTheWay hhash
    have hsize : t.array.size < 2 ^ 63 := hway.size.trans_lt (by decide)
    obtain ⟨P, R, hhalfway⟩ := hway.halfway
    have hdistinct : returned.Pairwise fun e f ↦ e.1.normal? ≠ f.1.normal? := by
      refine hhalfway.distinct.imp_of_mem fun he hf hne heq ↦ hne ?_
      rw [Value.normal?_of_stored (hhalfway.known _ he).1,
        Value.normal?_of_stored (hhalfway.known _ hf).1] at heq
      exact Option.some.inj heq
    obtain ⟨before, after, hstops, hbefore, hafter, hnext⟩ :=
      hhalfway.next_eq hway.sound hhash hsize
    refine ⟨hdistinct, _, _, hnext, fun e he ↦ ?_, fun hnone k hk ↦ ?_⟩
    · have hmem : e ∈ t.stops (m.context hash) := by
        rw [hstops]
        exact List.mem_append.mpr (.inr (List.mem_of_find?_eq_some he))
      have hstored := hway.sound.stored_of_mem_stops hmem
      refine ⟨hway.sound.get_of_mem_stops hhash hsize hmem hstored rfl, ?_⟩
      intro hnil
      have hfilled := List.find?_some he
      rw [filled, hnil] at hfilled
      cases hfilled
    · cases hx : k.normal? with
      | none =>
        rw [Value.normal?_eq_none_iff, ← Value.key?_eq_none_iff] at hx
        exact absurd (get_of_key?_none _ _ hx) (hway.there k hk)
      | some x =>
        obtain ⟨e, he, rfl⟩ := hway.returned_of_end hhash hhalfway hstops hafter hnone hx hk
        have hnormal := Value.normal?_of_stored (hhalfway.known e he).1
        refine ⟨e, ⟨he, hnormal⟩, ?_⟩
        rintro f ⟨hf, hfnormal⟩
        by_contra hne
        have : Std.Symm fun e f : Value × Value ↦ e.1.normal? ≠ f.1.normal? := ⟨fun _ _ h ↦ h.symm⟩
        exact hdistinct.forall hf he hne (hfnormal.trans hnormal.symm)
  · exact (h.sound hhash).1.noRehash_of_get hhash hle hsize hkey hvalue

/-- A key that is removed while an enumeration is at it can be gone on from. -/
theorem enumeration_is_stable_of_removal :
    ∃ t steady, Walk Value.hash 4 .origin t (.int 7) [(.int 7, .bool true)] steady ∧
      t.get (Moment.origin.context Value.hash) (.int 7) = .nil ∧
      ∃ found u, t.next (Moment.origin.context Value.hash) (.int 7) = .ok (found, u) := by
  let first := (store Value.hash (.still .origin) (withHashSize 4) (.int 7) (.bool true)).2
  let second : Table := { first with anchored := true }
  let written := store Value.hash (.still .origin) second (.int 7) .nil
  have hfirst : Reaches Value.hash 4 .origin first :=
    (Reaches.new .origin).storeInline (by decide) rfl rfl
  obtain ⟨hstable, hnoRehash⟩ := @enumeration_is_stable Value.hash 4 Value.rawEq_hash
  have hnext : first.next (Moment.origin.context Value.hash) .nil =
      .ok (some (.int 7, .bool true), second) := by
    rw [(hfirst.sound Value.rawEq_hash).1.next_nil (by decide +kernel)]
    rfl
  have hwalk := (Walk.start hfirst (by decide +kernel) (by decide +kernel)).next hnext rfl
  have hget : second.get (Moment.origin.context Value.hash) (.int 7) ≠ .nil := by decide +kernel
  have hwrite : NoRehash Value.hash (.still .origin) second (.int 7) .nil :=
    hnoRehash .origin second (hfirst.next hnext) (by decide +kernel) (.still .origin) (.int 7) .nil
      (le_refl _) rfl rfl hget
  have hwritten : second.store Value.hash (.still .origin) (.int 7) .nil = (written.1, written.2) :=
    Prod.mk.eta.symm
  have hwalk' := hwalk.store (c := .still .origin) (le_refl _) (by exact nofun) rfl rfl rfl hwrite
    hwritten (by decide +kernel)
  obtain ⟨-, found, u, hfound, -⟩ := hstable _ _ _ _ _ hwalk'
  exact ⟨written.2, _, hwalk', by decide +kernel, found, u, hfound⟩

end LuaData.Table
