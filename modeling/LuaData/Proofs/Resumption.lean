import Mathlib.Data.List.Find
import LuaData.Proofs.Stability

/-!
# Going on from a string

A string that an enumeration has returned can be gone on from after it was removed, as long as the
slot that it leaves behind still holds it. A dead slot keeps a short string, but holds a long one
weakly, and through the cell that was passed to the last write under it (`lastWritten`), not through
the one that was returned. `Pause` is an enumeration that waits at a string while its table is
written to. Exactly if the string is long and the cell of the last write was released, the
enumeration cannot go on, even if its caller keeps the string that was returned: `next_after_pause`.
-/

namespace LuaData

/-- A value that a handle gives back is there if the cell that the handle keeps is alive. -/
theorem Handle.present_of_get {alive : Ref → Bool} {h : Handle} {v : Value}
    (hget : h.get alive = some v) (hkept : ∀ r, h.kept? = some r → alive r = true) :
    v.present alive = true := by
  cases h with
  | strong w =>
    cases hget
    unfold Value.present
    cases href : v.ref? with
    | none => rfl
    | some r => exact hkept r href
  | weak w =>
    have hget' : (if w.present alive then some w else none) = some v := hget
    split at hget'
    · rename_i hpresent
      exact Option.some.inj hget' ▸ hpresent
    · cases hget'

/-- The key that a slot holds is there if the cells that the slots keep are alive. -/
theorem Arena.present_of_key?_of_kept {alive : Ref → Bool} {a : Arena} {i : Nat} {k : Value}
    (h : a.key? alive i = some k) (hkept : ∀ r ∈ a.kept, alive r = true) :
    k.present alive = true := by
  obtain ⟨handle, hhandle, hget⟩ := Option.bind_eq_some_iff.mp h
  refine Handle.present_of_get hget fun r hr ↦ hkept r ?_
  unfold state at hhandle
  cases hslot : a.slots[i]? with
  | none =>
    rw [hslot] at hhandle
    cases hhandle
  | some slot =>
    rw [hslot] at hhandle
    have hstate : slot.state.key? = some handle := hhandle
    refine List.mem_flatMap.mpr ⟨slot, Array.mem_toList_iff.mpr (Array.mem_of_getElem? hslot), ?_⟩
    cases hcase : slot.state with
    | live key value =>
      rw [hcase] at hstate
      cases hstate
      simp [hr]
    | dead key =>
      rw [hcase] at hstate
      cases hstate
      simp [hr]
    | free =>
      rw [hcase] at hstate
      cases hstate

namespace Table

variable {hash : Value → UInt64} {hint : Nat} {m n : Moment} {c : Course} {t u w : Table}
  {key value cursor : Value} {s last : Str} {ahead : List (Value × Value)} {B C : List Value}

/-! ## The entries ahead -/

/-- A part of a list that has all that is looked for finds the same. -/
theorem find?_eq_of_sublist {p : Value → Bool} {l l' : List Value} (h : l'.Sublist l)
    (hnodup : l.Nodup) (hall : ∀ x ∈ l, p x = true → x ∈ l') : l'.find? p = l.find? p := by
  induction h with
  | slnil => rfl
  | @cons l' l a hsub ih =>
    obtain ⟨ha, hnodup⟩ := List.nodup_cons.mp hnodup
    have hp : ¬ p a = true := fun hp ↦ ha (hsub.subset (hall a List.mem_cons_self hp))
    rw [List.find?_cons_of_neg hp]
    exact ih hnodup fun x hx ↦ hall x (List.mem_cons_of_mem _ hx)
  | @cons_cons l' l a hsub ih =>
    obtain ⟨ha, hnodup⟩ := List.nodup_cons.mp hnodup
    by_cases hp : p a = true
    · rw [List.find?_cons_of_pos hp, List.find?_cons_of_pos hp]
    · rw [List.find?_cons_of_neg hp, List.find?_cons_of_neg hp]
      refine ih hnodup fun x hx hpx ↦ ?_
      rcases List.mem_cons.mp (hall x (List.mem_cons_of_mem _ hx) hpx) with rfl | hmem
      · exact absurd hx ha
      · exact hmem

/-- A part of a list without equal keys is split by a key where the list is. -/
theorem sublist_split {P Q : List Value} {x : Value} (h : (P ++ x :: Q).Sublist (B ++ x :: C))
    (hnodup : (B ++ x :: C).Nodup) : P.Sublist B ∧ Q.Sublist C := by
  obtain ⟨-, hC, hdisjoint⟩ := List.nodup_append.mp hnodup
  obtain ⟨l, l', heq, hl, hl'⟩ := List.sublist_append_iff.mp h
  have hxl : x ∉ l := fun hx ↦ hdisjoint x (hl.subset hx) x List.mem_cons_self rfl
  have hxC := (List.nodup_cons.mp hC).1
  have hx : x ∈ l' := by
    have hmem : x ∈ l ++ l' := heq ▸ List.mem_append.mpr (.inr List.mem_cons_self)
    exact (List.mem_append.mp hmem).resolve_left hxl
  cases hl' with
  | cons _ hsub => exact absurd (hsub.subset hx) hxC
  | cons_cons _ hsub =>
    obtain ⟨rfl, -, rfl⟩ :=
      (List.append_cons_inj_of_notMem hxl fun hx' ↦ hxC (hsub.subset hx')).mp heq.symm
    exact ⟨hl, hsub⟩

/-- The value of a key is that of its content. -/
theorem Sound.get_content (hs : t.Sound hash m) (hhash : Value.RespectsEq hash)
    (hkey : key.Stored) : t.get (m.context hash) key.content = t.get (m.context hash) key := by
  rw [get_of_stored _ _ hkey.content, get_of_stored _ _ hkey,
    index?_of_content_eq t key.content_content]
  have hslot : t.slot? (m.context hash) key.content = t.slot? (m.context hash) key := by
    refine Option.ext fun i ↦ ?_
    rw [hs.slot?_eq_some_iff hhash hkey.content, hs.slot?_eq_some_iff hhash hkey,
      key.content_content]
  rw [hs.getFromHash_eq hhash hkey.content, hs.getFromHash_eq hhash hkey, hslot]

/-- A table has handed out a string, so it remembers that an enumeration is on the way. -/
theorem anchored_of_next {ctx : Context} {v : Value}
    (h : t.next ctx cursor = .ok (some (.str s, v), u)) : u.anchored = true := by
  have hscan : ∀ b chain, t.scanHash ctx b chain = (some (.str s, v), u) → u.anchored = true := by
    intro b chain hscan
    rw [scanHash_eq] at hscan
    split at hscan
    · cases hscan
      rfl
    · cases hscan
  have harray : ∀ i, t.scanArray ctx i = (some (.str s, v), u) → u.anchored = true := by
    intro i hi
    unfold scanArray at hi
    split at hi
    · cases hi
    · exact hscan _ _ hi
  have hhash : ∀ k, t.nextInHash ctx k = .ok (some (.str s, v), u) → u.anchored = true := by
    intro k hk
    rw [nextInHash_eq] at hk
    split at hk
    · cases hk
    · exact hscan _ _ (Except.ok.inj hk)
  cases hcursor : cursor.key? with
  | none =>
    unfold next at h
    rw [hcursor] at h
    dsimp only at h
    split at h
    · exact harray 0 (Except.ok.inj h)
    · cases h
  | some k =>
    rw [next_of_key? _ _ hcursor] at h
    split at h
    · exact harray _ (Except.ok.inj h)
    · exact hhash k h

/-! ## The string that a slot holds -/

/-- The string that the slot of `s` holds after a write: that of the write, if it stores a value
under `s`. -/
def lastWritten (s last : Str) (key value : Value) : Str :=
  match key with
  | .str written => if written.bytes = s.bytes ∧ value.isNil = false then written else last
  | _ => last

/-- A removal leaves the string that the slot holds. -/
theorem lastWritten_nil (s last : Str) (key : Value) : lastWritten s last key .nil = last := by
  unfold lastWritten
  split
  · rw [if_neg fun h ↦ Bool.noConfusion h.2]
  · rfl

/-- A write under another key leaves the string that the slot holds. -/
theorem lastWritten_of_ne (value : Value) (h : key.content ≠ (Value.str s).content) :
    lastWritten s last key value = last := by
  unfold lastWritten
  split
  · rename_i written
    rw [if_neg]
    rintro ⟨hbytes, -⟩
    exact h (by rw [Value.content, Value.content, hbytes])
  · rfl

/-- The slot takes over the string that a value is stored under. -/
theorem str_lastWritten (last : Str) (h : key.content = (Value.str s).content)
    (hvalue : value ≠ .nil) :
    key = .str (lastWritten s last key value) ∧ (lastWritten s last key value).bytes = s.bytes := by
  have hbytes : ∃ written, key = .str written ∧ written.bytes = s.bytes := by
    rcases Value.eq_or_bytes_eq_of_content_eq h with rfl | ⟨written, s', rfl, hs', hbytes⟩
    · exact ⟨s, rfl, rfl⟩
    · cases hs'
      exact ⟨written, rfl, hbytes⟩
  obtain ⟨written, rfl, hbytes⟩ := hbytes
  have hwritten : lastWritten s last (.str written) value = written :=
    if_pos ⟨hbytes, Value.isNil_eq_false hvalue⟩
  rw [hwritten]
  exact ⟨rfl, hbytes⟩

/-- What the slot holds depends on the stored form of the key. -/
theorem lastWritten_of_key? {k : Value} (h : key.key? = some k) :
    lastWritten s last k value = lastWritten s last key value := by
  rcases eq_or_inline_of_key? h with rfl | ⟨i, rfl⟩
  · rfl
  · cases key with
    | str written => cases h
    | _ => rfl

/-- A string is on the trail if a slot holds it. -/
theorem Sound.str_mem_trail_iff (hs : t.Sound hash m) :
    (Value.str s).content ∈ t.trail m.alive ↔
      ∃ i k, t.arena.key? m.alive i = some k ∧ k.content = (Value.str s).content := by
  rw [← hs.mem_hashTrail_iff, trail, List.mem_append, or_iff_right]
  intro hmem
  obtain ⟨i, -, hi⟩ := List.mem_map.mp hmem
  cases hi

/-! ## Waiting at a string -/

/-- An enumeration that waits at the string `s`. The trail was `B`, `s` and `C` when `s` was
returned, and the entries `ahead` were the ones that followed. -/
structure Paused (hash : Value → UInt64) (s : Str) (ahead : List (Value × Value)) (B C : List Value)
    (m : Moment) (t : Table) (last : Str) : Prop where
  sound : t.Sound hash m
  size : t.array.size ≤ 2 ^ 62
  anchored : t.anchored = true
  nodup : (B ++ (Value.str s).content :: C).Nodup
  normal : ∀ x ∈ C, x.Stored ∧ x.content = x
  stored : ∀ e ∈ ahead, e.1.Stored
  sublist : (ahead.map fun e ↦ e.1.content).Sublist C
  trail : (t.trail m.alive).Sublist (B ++ (Value.str s).content :: C)
  /-- The keys that still have a value had one when `s` was returned. -/
  held : ∀ k : Value, k.Stored → t.get (m.context hash) k ≠ .nil → k.content ∈ C →
    ∃ e ∈ ahead, e.1.content = k.content
  bytes : last.bytes = s.bytes
  named : (Value.str last).Named m.fresh
  /-- The slot holds the string of the last write, or has lost it. -/
  slot : (∃ i, t.arena.key? m.alive i = some (.str last)) ∨
    (Value.str s).content ∉ t.trail m.alive ∧ ¬ (Value.str last).Lasts m.alive

namespace Paused

/-- The string of the last write is the one that was returned, but for its cell. -/
theorem content_eq (h : Paused hash s ahead B C m t last) :
    (Value.str last).content = (Value.str s).content := by
  rw [Value.content, Value.content, h.bytes]

/-- Keys are taken off the trail. -/
theorem shrink (h : Paused hash s ahead B C m t last) (hu : u.Sound hash n) (hle : m ≤ n)
    (hshrinks : Shrinks m n t u)
    (hheld : ∀ k : Value, k.Stored → u.get (n.context hash) k ≠ .nil → k.content ∈ C →
      ∃ e ∈ ahead, e.1.content = k.content) : Paused hash s ahead B C n u last := by
  refine ⟨hu, hshrinks.array ▸ h.size, hshrinks.anchored.trans h.anchored, h.nodup, h.normal,
    h.stored, h.sublist, hshrinks.trail_sublist.trans h.trail, hheld, h.bytes,
    h.named.mono (Moment.fresh_le hle), ?_⟩
  rcases h.slot with ⟨i, hi⟩ | ⟨hgone, hlost⟩
  · by_cases hmem : (Value.str s).content ∈ u.trail n.alive
    · -- No other slot holds the string.
      obtain ⟨j, k, hk, hcontent⟩ := hu.str_mem_trail_iff.mp hmem
      have hk' := hshrinks.old j k hk
      obtain rfl := h.sound.distinct j i k _ hk' hi (hcontent.trans h.content_eq.symm)
      exact .inl ⟨j, Option.some.inj (hk'.symm.trans hi) ▸ hk⟩
    · refine .inr ⟨hmem, fun hlasts ↦ hmem ?_⟩
      exact hu.str_mem_trail_iff.mpr ⟨i, _, hshrinks.kept h.anchored i _ hi hlasts, h.content_eq⟩
  · exact .inr ⟨fun hmem ↦ hgone (hshrinks.trail_sublist.subset hmem),
      fun hlasts ↦ hlost (hlasts.of_le hle h.named)⟩

/-- Time passes. -/
theorem release (h : Paused hash s ahead B C m t last) (hhash : Value.RespectsEq hash)
    (hle : m ≤ n) : Paused hash s ahead B C n t last :=
  h.shrink (h.sound.later hle) hle (h.sound.shrinks_of_le hle)
    fun k hk hget ↦ h.held k hk (h.sound.get_ne_nil_of_le hhash hle hget)

/-- A table with the same trail is waited at in the same way, whichever string was written last. -/
theorem keep (h : Paused hash s ahead B C m t last) (hu : u.Sound hash m)
    (hsize : u.array.size = t.array.size) (hanchored : u.anchored = t.anchored)
    (htrail : u.trail m.alive = t.trail m.alive)
    (hheld : ∀ k : Value, k.Stored → u.get (m.context hash) k ≠ .nil → k.content ∈ C →
      ∃ e ∈ ahead, e.1.content = k.content) {written : Str} (hbytes : written.bytes = s.bytes)
    (hnamed : (Value.str written).Named m.fresh)
    (hslot : (∃ i, u.arena.key? m.alive i = some (.str written)) ∨
      (Value.str s).content ∉ t.trail m.alive ∧ ¬ (Value.str written).Lasts m.alive) :
    Paused hash s ahead B C m u written :=
  ⟨hu, hsize.trans_le h.size, hanchored.trans h.anchored, h.nodup, h.normal, h.stored, h.sublist,
    htrail ▸ h.trail, hheld, hbytes, hnamed, htrail.symm ▸ hslot⟩

/-- The slot of a key takes over the key that is passed in, with its value. -/
theorem assigned (h : Paused hash s ahead B C m t last) (hhash : Value.RespectsEq hash)
    (hkey : key.Stored) (hpresent : key.present m.alive = true) (hne : value ≠ .nil) {i : Nat}
    (hi : t.slot? (m.context hash) key = some i) (hu : (t.assigned i key value).Sound hash m)
    (hheld : ∀ k : Value, k.Stored → (t.assigned i key value).get (m.context hash) k ≠ .nil →
      k.content ∈ C → ∃ e ∈ ahead, e.1.content = k.content) :
    Paused hash s ahead B C m (t.assigned i key value) (lastWritten s last key value) := by
  have htrail := h.sound.trail_assigned hhash hkey hpresent hi value
  obtain ⟨l, hl, hlcontent⟩ := (h.sound.slot?_eq_some_iff hhash hkey).mp hi
  by_cases hcontent : key.content = (Value.str s).content
  · -- The slot is that of the string.
    obtain ⟨hstr, hbytes⟩ := str_lastWritten last hcontent hne
    have hself := key?_assigned_self value hl hpresent
    have hnamed := Value.named_of_present hpresent
    generalize lastWritten s last key value = written at hstr hbytes ⊢
    exact h.keep hu rfl rfl htrail hheld hbytes (hstr ▸ hnamed) (.inl ⟨i, hstr ▸ hself⟩)
  · rw [lastWritten_of_ne value hcontent]
    refine h.keep hu rfl rfl htrail hheld h.bytes h.named (h.slot.imp_left ?_)
    rintro ⟨j, hj⟩
    have hij : i ≠ j := by
      rintro rfl
      obtain rfl := Option.some.inj (hl.symm.trans hj)
      exact hcontent (hlcontent.symm.trans h.content_eq)
    exact ⟨j, (key?_assigned_of_ne m.alive t key value hij).trans hj⟩

/-- A value is stored under a key that is in the array part or has a slot. -/
theorem place (h : Paused hash s ahead B C m t last) (hhash : Value.RespectsEq hash)
    (hkey : key.Stored) (hpresent : key.present m.alive = true)
    (hvalue : value.present m.alive = true)
    (hslot : t.index? key = none → ∃ i, t.slot? (m.context hash) key = some i)
    (hahead : key.content ∈ C → ∃ e ∈ ahead, e.1.content = key.content)
    (hplaced : Placed hash m t key value u) :
    Paused hash s ahead B C m u (lastWritten s last key value) := by
  have hnamed := Value.named_of_present hpresent
  have hvalueNamed := Value.named_of_present hvalue
  have hu := hplaced.sound h.sound hhash hkey hnamed hvalueNamed h.size
  have hupdated := hplaced.updated h.sound hhash hkey hnamed hvalueNamed h.size
    (get_ofEntry_of_present hpresent _) (get_ofEntry_of_present hvalue _)
  have hheld : ∀ k : Value, k.Stored → u.get (m.context hash) k ≠ .nil → k.content ∈ C →
      ∃ e ∈ ahead, e.1.content = k.content := by
    intro k hk hget hmem
    rw [hupdated k hk] at hget
    split at hget
    · rename_i hcontent
      rw [hcontent] at hmem ⊢
      exact hahead hmem
    · exact h.held k hk hget hmem
  cases hplaced with
  | @inArray i hindex =>
    have hne : key.content ≠ (Value.str s).content := by
      obtain ⟨k, rfl, -, -⟩ := index?_eq_some_iff.mp hindex
      exact nofun
    rw [lastWritten_of_ne value hne]
    have htrail : (Table.trail m.alive { t with array := t.array.setIfInBounds i value }) =
        t.trail m.alive :=
      trail_congr Array.size_setIfInBounds rfl fun _ ↦ rfl
    exact h.keep hu Array.size_setIfInBounds rfl htrail hheld h.bytes h.named h.slot
  | appended hint hk _ _ hnone =>
    cases hindex : t.index? key with
    | some i =>
      obtain ⟨k', hint', hk', hlt⟩ := index?_eq_some_iff.mp hindex
      cases hint.symm.trans hint'
      omega
    | none =>
      obtain ⟨i, hi⟩ := hslot hindex
      rw [hnone] at hi
      cases hi
  | unchanged _ hnil =>
    rw [hnil, lastWritten_nil]
    exact h
  | @buried i _ hnil =>
    rw [hnil, lastWritten_nil]
    exact h.shrink hu (le_refl m) (shrinks_buried m t i) hheld
  | dropped _ _ _ hunanchored =>
    rw [h.anchored] at hunanchored
    cases hunanchored
  | assigned _ hne hi => exact h.assigned hhash hkey hpresent hne hi hu hheld
  | inserted hindex _ hnone =>
    obtain ⟨i, hi⟩ := hslot hindex
    rw [hnone] at hi
    cases hi

/-- The table is written to under a key that has a value. -/
theorem store {r : Except Error Unit} (h : Paused hash s ahead B C m t last)
    (hhash : Value.RespectsEq hash) (hle : m ≤ c.clear) (hkey : key.present c.place.alive = true)
    (hvalue : value.present c.place.alive = true) (hget : t.get (c.clear.context hash) key ≠ .nil)
    (hstore : t.store hash c key value = (r, u)) :
    Paused hash s ahead B C c.last u (lastWritten s last key value) := by
  cases hstored : key.key? with
  | none => exact absurd (get_of_key?_none _ _ hstored) hget
  | some k =>
    have hk := Value.stored_of_key? hstored
    have hkpresent := present_of_key? hstored hkey
    have hclear := h.release hhash hle
    have hrehash := h.sound.noRehash_of_get hhash hle h.size hkey hvalue hget
    have hfirst := hrehash k hstored
    have hattempt := hclear.sound.tryStore_cases c.clear_le hhash hk (Value.named_of_present hvalue)
      h.size
    rw [hrehash.tryStore_eq hstored hstore] at hattempt
    rw [← lastWritten_of_key? hstored]
    have hahead := hclear.held k hk (get_of_key? _ _ hstored ▸ hget)
    have hslot : ∀ {w : Table}, w.Sound hash c.clear → Cleared c.clear.alive t w →
        w.index? k = none → ∃ i, w.slot? (c.place.context hash) k = some i := fun hw hcleared ↦
      hclear.sound.slot?_of_get hhash c.clear_le hw hcleared hstored hkey hget
    generalize (t.tryStore hash c.clear c.place k value).1 = done at hattempt hfirst
    cases hattempt with
    | full => exact absurd rfl hfirst
    | noSlot hw hcleared hindex hnone =>
      obtain ⟨i, hi⟩ := hslot hw hcleared hindex
      rw [hnone] at hi
      cases hi
    | stored hw hcleared hplaced hready =>
      have hcleared' := hclear.shrink hw (le_refl _) (hclear.sound.shrinks_makeReady hready)
        fun l hl hlget ↦ hclear.held l hl (hclear.sound.get_cleared hhash hw hcleared l ▸ hlget)
      have hplaced' := (hcleared'.release hhash c.clear_le).place hhash hk hkpresent hvalue
        (hslot hw hcleared) hahead hplaced
      exact hplaced'.release hhash c.place_le_last

/-- A string has just been returned. -/
theorem start {v : Value} {passed : List (Value × Value)} (hs : t.Sound hash m)
    (hhash : Value.RespectsEq hash) (hsize : t.array.size ≤ 2 ^ 62) (hanchored : t.anchored = true)
    (hentries : t.entries (m.context hash) = passed ++ (.str s, v) :: ahead)
    (hpresent : (Value.str s).present m.alive = true) : ∃ B C, Paused hash s ahead B C m t s := by
  rw [hs.entries_eq_filter] at hentries
  obtain ⟨before, rest, hstops, -, hrest⟩ := List.filter_eq_append_iff.mp hentries
  obtain ⟨skipped, behind, rfl, -, -, rfl⟩ := List.filter_eq_cons_iff.mp hrest
  have hmem : ∀ e ∈ behind, e ∈ t.stops (m.context hash) := fun e he ↦ by
    rw [hstops]
    simp [he]
  have htrail : t.trail m.alive = (before ++ skipped).map (fun e ↦ e.1.content) ++
      (Value.str s).content :: behind.map fun e ↦ e.1.content := by
    rw [← map_stops hash, hstops]
    simp only [List.map_append, List.map_cons, List.append_assoc]
  have hmemTrail : (Value.str s).content ∈ t.trail m.alive := by
    rw [htrail]
    exact List.mem_append.mpr (.inr List.mem_cons_self)
  refine ⟨_, _, hs, hsize, hanchored, htrail ▸ hs.trail_nodup (by omega), ?_, ?_,
    List.filter_sublist.map _, htrail ▸ List.Sublist.refl _, ?_, rfl,
    Value.named_of_present hpresent, ?_⟩
  · intro x hx
    obtain ⟨e, he, rfl⟩ := List.mem_map.mp hx
    exact ⟨(hs.stored_of_mem_stops (hmem e he)).content, e.1.content_content⟩
  · intro e he
    exact hs.stored_of_mem_stops (hmem e (List.mem_filter.mp he).1)
  · intro k hk hget hx
    obtain ⟨e, he, hcontent⟩ := List.mem_map.mp hx
    have hvalue := hs.get_of_mem_stops hhash (by omega) (hmem e he) hk hcontent
    refine ⟨e, List.mem_filter.mpr ⟨he, ?_⟩, hcontent⟩
    rw [filled, Value.isNil_eq_false (hvalue ▸ hget)]
    rfl
  · have hstop : (Value.str s, v) ∈ t.stops (m.context hash) := by
      rw [hstops]
      simp
    rcases List.mem_append.mp hstop with harray | hslot
    · obtain ⟨i, -, hi, -⟩ := mem_arrayStops_iff.mp harray
      cases hi
    · obtain ⟨i, hi⟩ := hs.mem_hashStops_iff.mp hslot
      exact .inl ⟨i, (hs.stop?_fits hi).1⟩

/-- An enumeration goes on from its string, while the slot holds it, to the first of the entries
ahead that still has a value. -/
theorem resumes (h : Paused hash s ahead B C m t last) (hhash : Value.RespectsEq hash)
    (hlasts : (Value.str last).Lasts m.alive) :
    ∃ found u, t.next (m.context hash) (.str s) = .ok (found, u) ∧
      found.map (fun e ↦ e.1.content) =
        (ahead.find? fun e ↦ !(t.get (m.context hash) e.1).isNil).map (fun e ↦ e.1.content) ∧
      ∀ e, found = some e → t.get (m.context hash) e.1 = e.2 := by
  have hs := h.sound
  have hsize : t.array.size < 2 ^ 63 := h.size.trans_lt (by decide)
  obtain ⟨i, hi⟩ := h.slot.resolve_right fun hgone ↦ hgone.2 hlasts
  have hmem := hs.str_mem_trail_iff.mpr ⟨i, _, hi, h.content_eq⟩
  rw [← map_stops hash] at hmem
  obtain ⟨e, he, hcontent⟩ := List.mem_map.mp hmem
  obtain ⟨before, behind, hstops⟩ := List.append_of_mem he
  have hbehind : ∀ f ∈ behind, f ∈ t.stops (m.context hash) := fun f hf ↦ by
    rw [hstops]
    exact List.mem_append.mpr (.inr (List.mem_cons_of_mem _ hf))
  have htrail : t.trail m.alive = before.map (fun e ↦ e.1.content) ++
      (Value.str s).content :: behind.map fun e ↦ e.1.content := by
    rw [← map_stops hash, hstops, List.map_append, List.map_cons, hcontent]
  refine ⟨_, _, hs.next_eq_of_stop hhash hsize hstops rfl hcontent, ?_, fun f hf ↦ ?_⟩
  · -- Both look for the first key behind the string that has a value.
    let valued : Value → Bool := fun x ↦ !(t.get (m.context hash) x).isNil
    have hfound : (behind.find? filled).map (fun e ↦ e.1.content) =
        (behind.map fun e ↦ e.1.content).find? valued := by
      rw [List.find?_map]
      congr 1
      refine List.find?_congr fun f hf ↦ ?_
      have hstored := hs.stored_of_mem_stops (hbehind f hf)
      show filled f = !(t.get (m.context hash) f.1.content).isNil
      rw [hs.get_of_mem_stops hhash hsize (hbehind f hf) hstored.content f.1.content_content.symm]
      rfl
    have hahead : (ahead.find? fun e ↦ !(t.get (m.context hash) e.1).isNil).map
        (fun e ↦ e.1.content) = (ahead.map fun e ↦ e.1.content).find? valued := by
      rw [List.find?_map]
      congr 1
      refine List.find?_congr fun f hf ↦ ?_
      show _ = !(t.get (m.context hash) f.1.content).isNil
      rw [hs.get_content hhash (h.stored f hf)]
    have hvalued : ∀ x, valued x = true → t.get (m.context hash) x ≠ .nil := by
      intro x hx hnil
      simp only [valued, hnil] at hx
      cases hx
    obtain ⟨-, hxC, hdisjoint⟩ := List.nodup_append.mp h.nodup
    obtain ⟨hnotMem, hC⟩ := List.nodup_cons.mp hxC
    obtain ⟨hsubB, hsubC⟩ := sublist_split (htrail ▸ h.trail) h.nodup
    rw [hfound, hahead, find?_eq_of_sublist hsubC hC, find?_eq_of_sublist h.sublist hC]
    · intro x hx hxvalued
      obtain ⟨hstored, hcontent⟩ := h.normal x hx
      obtain ⟨f, hf, hfx⟩ := h.held x hstored (hvalued x hxvalued) (hcontent.symm ▸ hx)
      exact List.mem_map.mpr ⟨f, hf, hfx.trans hcontent⟩
    · intro x hx hxvalued
      obtain ⟨hstored, hcontent⟩ := h.normal x hx
      have hmem := hs.mem_trail_of_get hhash hsize (Value.normal?_of_stored hstored)
        (hvalued x hxvalued)
      rw [hcontent, htrail] at hmem
      rcases List.mem_append.mp hmem with hbefore | hmem
      · exact absurd rfl (hdisjoint x (hsubB.subset hbefore) x (List.mem_cons_of_mem _ hx))
      · rcases List.mem_cons.mp hmem with rfl | hmem
        · exact absurd hx hnotMem
        · exact hmem
  · have hmem := hbehind f (List.mem_of_find?_eq_some hf)
    exact hs.get_of_mem_stops hhash hsize hmem (hs.stored_of_mem_stops hmem) rfl

/-- An enumeration cannot go on from its string once the slot has lost it. -/
theorem fails (h : Paused hash s ahead B C m t last) (hhash : Value.RespectsEq hash)
    (hkept : ∀ r ∈ t.kept, m.alive r = true) (hlost : ¬ (Value.str last).Lasts m.alive) :
    t.next (m.context hash) (.str s) = .error .badCursor := by
  have hsize : t.array.size < 2 ^ 63 := h.size.trans_lt (by decide)
  rcases h.slot with ⟨i, hi⟩ | ⟨hgone, -⟩
  · refine absurd (.inr (Arena.present_of_key?_of_kept hi fun r hr ↦ hkept r ?_)) hlost
    exact List.mem_append.mpr (.inl (List.mem_append.mpr (.inr hr)))
  · refine h.sound.next_eq_error hhash hsize rfl fun e he hcontent ↦ hgone ?_
    rw [← map_stops hash]
    exact List.mem_map.mpr ⟨e, he, hcontent⟩

end Paused

/-! ## Pauses -/

/-- An enumeration that has returned the string `s`, which its caller keeps, and waits. In between
cells are released, and the table is written to under keys that have a value, by keys and values
that the caller keeps during the write. `ahead` are the entries that followed `s`, and `last` is the
string that was passed to the last write of a value under `s`. -/
inductive Pause (hash : Value → UInt64) (hint : Nat) (s : Str) (ahead : List (Value × Value)) :
    Moment → Table → Str → Prop
  | returned {m : Moment} {t u : Table} {cursor v : Value} {passed : List (Value × Value)}
      (h : Reaches hash hint m t) (hsize : t.array.size ≤ 2 ^ 62)
      (hnext : t.next (m.context hash) cursor = .ok (some (.str s, v), u))
      (hentries : u.entries (m.context hash) = passed ++ (.str s, v) :: ahead)
      (hs : m.alive s.cell = true) : Pause hash hint s ahead m u s
  | release {m n : Moment} {t : Table} {last : Str} (h : Pause hash hint s ahead m t last)
      (hle : m ≤ n) (hs : n.alive s.cell = true) : Pause hash hint s ahead n t last
  | store {m : Moment} {c : Course} {t u : Table} {last : Str} {key value : Value}
      {r : Except Error Unit} (h : Pause hash hint s ahead m t last) (hle : m ≤ c.clear)
      (hkey : key.present c.place.alive = true) (hvalue : value.present c.place.alive = true)
      (hget : t.get (c.clear.context hash) key ≠ .nil) (hstore : t.store hash c key value = (r, u))
      (hs : c.last.alive s.cell = true) :
      Pause hash hint s ahead c.last u (lastWritten s last key value)

/-- All along a pause an enumeration waits at its string. -/
theorem Pause.paused (h : Pause hash hint s ahead m t last) (hhash : Value.RespectsEq hash) :
    ∃ B C, Paused hash s ahead B C m t last := by
  induction h with
  | returned h hsize hnext hentries hs =>
    have hu := (h.sound hhash).1.next hnext
    refine Paused.start hu.sound hhash ?_ (anchored_of_next hnext) hentries hs
    rcases next_table hnext with rfl | rfl <;> exact hsize
  | release _ hle _ ih =>
    obtain ⟨B, C, h⟩ := ih
    exact ⟨B, C, h.release hhash hle⟩
  | store _ hle hkey hvalue hget hstore _ ih =>
    obtain ⟨B, C, h⟩ := ih
    exact ⟨B, C, h.store hhash hle hkey hvalue hget hstore⟩

/-- After a pause an enumeration goes on to the first of the entries ahead that still has a value,
if its string is short or the string of the last write under it is alive. Otherwise it cannot go on,
though its caller has kept the string. -/
theorem next_after_pause (hhash : Value.RespectsEq hash) (h : Pause hash hint s ahead m t last)
    (hkept : ∀ r ∈ t.kept, m.alive r = true) :
    (s.bytes.length ≤ shortStringLimit ∨ m.alive last.cell = true →
      ∃ found u, t.next (m.context hash) (.str s) = .ok (found, u) ∧
        found.map (fun e ↦ e.1.content) =
          (ahead.find? fun e ↦ !(t.get (m.context hash) e.1).isNil).map (fun e ↦ e.1.content) ∧
        ∀ e, found = some e → t.get (m.context hash) e.1 = e.2) ∧
    (shortStringLimit < s.bytes.length → m.alive last.cell = false →
      t.next (m.context hash) (.str s) = .error .badCursor) := by
  obtain ⟨B, C, hpaused⟩ := h.paused hhash
  have hlasts : (Value.str last).Lasts m.alive ↔
      s.bytes.length ≤ shortStringLimit ∨ m.alive last.cell = true := by
    rw [← hpaused.bytes]
    refine or_congr ?_ Iff.rfl
    show decide (shortStringLimit < last.bytes.length) = false ↔ _
    rw [decide_eq_false_iff_not, Nat.not_lt]
  refine ⟨fun h ↦ hpaused.resumes hhash (hlasts.mpr h), fun hlong hgone ↦ ?_⟩
  refine hpaused.fails hhash hkept fun h ↦ ?_
  rcases hlasts.mp h with hshort | halive
  · omega
  · rw [hgone] at halive
    cases halive

/-- A string of fifty bytes is updated through a copy and removed. When the copy is released, the
enumeration cannot go on from the string that it has returned. -/
theorem next_after_pause_of_update :
    ∃ (s last : Str) (m : Moment) (t : Table), Pause Value.hash 4 s [] m t last ∧
      m.alive s.cell = true ∧ t.next (m.context Value.hash) (.str s) = .error .badCursor := by
  let s : Str := ⟨List.replicate 50 120, 0⟩
  let copy : Str := ⟨List.replicate 50 120, 1⟩
  let m : Moment := .allAlive 2
  let n : Moment := ⟨fun r ↦ r < 1, 2, fun _ h ↦ (of_decide_eq_true h).trans (by decide)⟩
  let made := (store Value.hash (.still m) (withHashSize 4) (.str s) (.bool true)).2
  let held : Table := { made with anchored := true }
  let updated := store Value.hash (.still m) held (.str copy) (.bool false)
  let removed := store Value.hash (.still m) updated.2 (.str s) .nil
  have hmade : Reaches Value.hash 4 m made := by
    refine Reaches.store (c := .still m) (.new m) ?_ (le_refl _) ?_ ?_
    · decide
    · exact Value.named_of_ref? rfl Nat.two_pos
    · exact Value.named_of_inline rfl _
  have hnext : made.next (m.context Value.hash) .nil = .ok (some (.str s, .bool true), held) := by
    have hfirst : (made.stops (m.context Value.hash)).find? filled = some (.str s, .bool true) := by
      decide +kernel
    rw [(hmade.sound Value.rawEq_hash).1.next_nil (by decide +kernel), hfirst]
    rfl
  have hentries : held.entries (m.context Value.hash) = [] ++ [(.str s, .bool true)] := by
    decide +kernel
  have hupdated : held.store Value.hash (.still m) (.str copy) (.bool false) =
      (updated.1, updated.2) :=
    Prod.mk.eta.symm
  have hremoved : updated.2.store Value.hash (.still m) (.str s) .nil = (removed.1, removed.2) :=
    Prod.mk.eta.symm
  have hreturned := Pause.returned hmade (by decide +kernel) hnext hentries rfl
  have hwritten := hreturned.store (c := .still m) (le_refl m) rfl rfl (by decide +kernel)
    hupdated rfl
  have hburied := hwritten.store (c := .still m) (le_refl m) rfl rfl (by decide +kernel)
    hremoved rfl
  have hle : m ≤ n := Moment.allAlive_le (Nat.le_refl 2)
  have hpause := hburied.release hle rfl
  exact ⟨s, _, n, removed.2, hpause, rfl, (next_after_pause Value.rawEq_hash hpause
    (by decide +kernel)).2 (by decide) rfl⟩

end Table

end LuaData
