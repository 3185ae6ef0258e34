-- A series of items by time, of which only the newest can change: a later item comes
-- behind it, one of its own time takes its place, and an older one is refused.
import TickPipeline.Lib.EventLog

namespace live_series

variable {ι : Type*} (time : ι → Int)

def Ascending (items : List ι) : Prop := items.Pairwise (fun x y => time x < time y)

/-- The series with one more item, or nothing when it is refused. -/
def update (items : List ι) (x : ι) : Option (List ι) :=
  match items.getLast? with
  | none => some [x]
  | some y =>
    if time y < time x then some (items ++ [x])
    else if time y = time x then some (items.dropLast ++ [x])
    else none

/-- The series after many updates. One that is refused leaves it as it is. -/
def follow (items news : List ι) : List ι :=
  news.foldl (fun items x => (update time items x).getD items) items

section update

variable {time} {items : List ι} {x y : ι}

theorem update_first : update time [] x = some [x] := rfl

theorem update_later (h : time y < time x) :
    update time (items ++ [y]) x = some (items ++ [y] ++ [x]) := by
  simp [update, h]

theorem update_same (h : time y = time x) : update time (items ++ [y]) x = some (items ++ [x]) := by
  simp [update, h]

theorem update_older (h : time x < time y) : update time (items ++ [y]) x = none := by
  simp only [update, List.getLast?_concat]
  rw [if_neg (by omega), if_neg (by omega)]

theorem ascending_nil : Ascending time [] := List.Pairwise.nil

theorem ascending_snoc :
    Ascending time (items ++ [y]) ↔ Ascending time items ∧ ∀ x ∈ items, time x < time y := by
  unfold Ascending
  rw [List.pairwise_append]
  simp

theorem Ascending.update (h : Ascending time items) {items' : List ι}
    (hupdate : live_series.update time items x = some items') : Ascending time items' := by
  rcases items.eq_nil_or_concat with rfl | ⟨rest, y, rfl⟩
  · cases hupdate
    exact List.pairwise_singleton _ _
  · rw [List.concat_eq_append] at h hupdate
    obtain ⟨hrest, hy⟩ := ascending_snoc.mp h
    rcases Int.lt_trichotomy (time y) (time x) with hlt | heq | hgt
    · rw [update_later hlt] at hupdate
      cases hupdate
      refine ascending_snoc.mpr ⟨h, fun z hz => ?_⟩
      rcases List.mem_append.mp hz with hz | hz
      · exact Int.lt_trans (hy z hz) hlt
      · rw [List.mem_singleton.mp hz]
        exact hlt
    · rw [update_same heq] at hupdate
      cases hupdate
      exact ascending_snoc.mpr ⟨hrest, fun z hz => heq ▸ hy z hz⟩
    · rw [update_older hgt] at hupdate
      cases hupdate

/-- An update puts its item last. -/
theorem update_last {items' : List ι} (hupdate : update time items x = some items') :
    items'.getLast? = some x := by
  unfold update at hupdate
  split at hupdate
  · cases hupdate
    rfl
  · split at hupdate
    · cases hupdate
      exact List.getLast?_concat
    · split at hupdate
      · cases hupdate
        exact List.getLast?_concat
      · cases hupdate

/-- Only an item older than the last one is refused. -/
theorem update_eq_none_iff : update time items x = none ↔ ∃ y, items.getLast? = some y ∧ time x < time y := by
  unfold update
  cases items.getLast? with
  | none => simp
  | some y =>
    dsimp only
    split
    · simp
      omega
    · split
      · simp
        omega
      · simp
        omega

end update

section follow

variable {time} {items news : List ι} {x y : ι}

theorem follow_append (items xs ys : List ι) :
    follow time items (xs ++ ys) = follow time (follow time items xs) ys := List.foldl_append

theorem follow_cons (items : List ι) (x : ι) (news : List ι) :
    follow time items (x :: news) = follow time ((update time items x).getD items) news := rfl

theorem follow_of_update {items' : List ι} (h : update time items x = some items') :
    follow time items [x] = items' := by
  simp [follow, h]

/-- News that are not newer than the newest item change that item at most. -/
theorem follow_not_newer (hnews : ∀ x ∈ news, time x ≤ time y) (items : List ι) :
    ∃ z, time z = time y ∧ follow time (items ++ [y]) news = items ++ [z] := by
  induction news using List.reverseRecOn with
  | nil => exact ⟨y, rfl, rfl⟩
  | append_singleton news x ih =>
    obtain ⟨z, hz, hfollow⟩ := ih (fun w hw => hnews w (by simp [hw]))
    rw [follow_append, hfollow]
    rcases Int.lt_or_eq_of_le (hnews x (by simp)) with hlt | heq
    · exact ⟨z, hz, by simp [follow, update_older (show time x < time z by omega)]⟩
    · exact ⟨x, heq, follow_of_update (update_same (hz.trans heq.symm))⟩

/-- News that end in the newest item itself leave the series as it is, however old they are. -/
theorem follow_stale (hnews : ∀ x ∈ news, time x ≤ time y) (hlast : ∀ x, news.getLast? = some x → x = y) :
    follow time (items ++ [y]) news = items ++ [y] := by
  rcases news.eq_nil_or_concat with rfl | ⟨before, x, rfl⟩
  · rfl
  · rw [List.concat_eq_append] at hnews hlast ⊢
    obtain rfl := hlast x (by simp)
    have hbefore : ∀ w ∈ before, time w ≤ time x := fun w hw => hnews w (by simp [hw])
    obtain ⟨z, hz, hfollow⟩ := follow_not_newer hbefore items
    rw [follow_append, hfollow]
    exact follow_of_update (update_same hz)

theorem follow_ascending (h : Ascending time items) (news : List ι) :
    Ascending time (follow time items news) := by
  induction news using List.reverseRecOn with
  | nil => exact h
  | append_singleton news x ih =>
    rw [follow_append]
    cases hupdate : update time (follow time items news) x with
    | none =>
      rw [follow_cons, hupdate]
      exact ih
    | some items' =>
      rw [follow_of_update hupdate]
      exact ih.update hupdate

theorem mem_snoc_ne {x y z : ι} (h : Ascending time (items ++ [y])) (heq : time y = time x) :
    z ∈ items ↔ z ∈ items ++ [y] ∧ time z ≠ time x := by
  have hbefore := (ascending_snoc.mp h).2
  constructor
  · intro hz
    have := hbefore z hz
    exact ⟨by simp [hz], by omega⟩
  · rintro ⟨hz, hne⟩
    rcases List.mem_append.mp hz with hz | hz
    · exact hz
    · rw [List.mem_singleton.mp hz] at hne
      exact absurd heq hne

/-- News that come in the order of time are all taken, and the last one of each time stays. -/
theorem follow_in_order (h : news.Pairwise (fun x y => time x ≤ time y)) :
    (follow time [] news).getLast? = news.getLast? ∧
      ∀ z, z ∈ follow time [] news ↔ event_log.lastOf time (time z) news = some z := by
  induction news using List.reverseRecOn with
  | nil => simp [follow]
  | append_singleton news x ih =>
    rw [List.pairwise_append] at h
    obtain ⟨hlast, hmem⟩ := ih h.1
    have hascending : Ascending time (follow time [] news) := follow_ascending ascending_nil news
    rw [follow_append, List.getLast?_concat]
    rcases news.eq_nil_or_concat with rfl | ⟨before, y, rfl⟩
    · rw [show follow time [] [] = ([] : List ι) from rfl, follow_of_update update_first]
      refine ⟨rfl, fun z => ?_⟩
      by_cases hz : time x = time z
      · rw [event_log.lastOf_snoc_self time [] x hz]
        simp [eq_comm]
      · rw [event_log.lastOf_snoc_ne time [] x hz]
        simpa using fun heq : z = x => hz (by rw [heq])
    · rw [List.concat_eq_append] at h hlast hmem hascending ⊢
      rw [List.getLast?_concat] at hlast
      obtain ⟨items, hitems⟩ := List.getLast?_eq_some_iff.mp hlast
      have hle : time y ≤ time x := h.2.2 y (by simp) x (by simp)
      rw [hitems] at hmem hascending ⊢
      rcases Int.lt_or_eq_of_le hle with hlt | heq
      · rw [follow_of_update (update_later hlt), List.getLast?_concat]
        refine ⟨rfl, fun z => ?_⟩
        by_cases hz : time x = time z
        · rw [event_log.lastOf_snoc_self time _ x hz, List.mem_append]
          have hnot : z ∉ items ++ [y] := by
            intro hmem'
            have hbefore := (ascending_snoc.mp hascending).2
            rcases List.mem_append.mp hmem' with h' | h'
            · have := hbefore z h'
              omega
            · rw [List.mem_singleton.mp h'] at hz
              omega
          simp only [hnot, false_or, List.mem_singleton, Option.some.injEq, eq_comm]
        · rw [event_log.lastOf_snoc_ne time _ x hz, List.mem_append, hmem z]
          simpa using fun heq : z = x => absurd (by rw [heq]) hz
      · rw [follow_of_update (update_same heq), List.getLast?_concat]
        refine ⟨rfl, fun z => ?_⟩
        by_cases hz : time x = time z
        · rw [event_log.lastOf_snoc_self time _ x hz, List.mem_append, mem_snoc_ne hascending heq]
          simp [hz, eq_comm]
        · rw [event_log.lastOf_snoc_ne time _ x hz, List.mem_append, mem_snoc_ne hascending heq, hmem z]
          have hne : z ≠ x := fun h' => hz (by rw [h'])
          simp [hne, Ne.symm hz]

end follow

end live_series
