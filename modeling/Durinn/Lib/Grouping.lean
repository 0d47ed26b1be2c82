import Durinn.Lib.Dict

/-!
# Grouping and adding up in dictionaries

Two loops that fill a dictionary in one pass: values are appended to the list under their key, or
numbers are added to the sum under theirs.

* `listAt_foldl_push` — the list under a key consists of the values that belong there, in order;
  `sum_length_foldl_push`: no value is lost or listed twice.
* `get?_foldl_tally` — the sum under a key is that of its numbers.
-/

namespace Dict

variable {K V : Type} [DecidableEq K]

section Grouping

variable (f : V → K)

theorem listAt_foldl_push (vs : List V) (d : Dict K (List V)) (k : K) :
    (vs.foldl (fun d v => d.push (f v) v) d).listAt k =
      d.listAt k ++ vs.filter fun v => f v = k := by
  induction vs generalizing d with
  | nil => simp
  | cons v vs ih =>
    rw [List.foldl_cons, ih, listAt_push, List.append_assoc, List.filter_cons]
    by_cases h : f v = k
    · simp [h]
    · simp [h, Ne.symm h]

theorem sum_length_setEntries (l : List (K × List V)) (k : K) (v : V) :
    ((setEntries k (((l.find? fun e => e.1 = k).map Prod.snd).getD [] ++ [v]) l).map
      fun e => e.2.length).sum = (l.map fun e => e.2.length).sum + 1 := by
  induction l with
  | nil => simp [setEntries]
  | cons e l ih =>
    by_cases he : e.1 = k
    · simp [setEntries, he]
      omega
    · rw [List.find?_cons_of_neg (by simpa using he), setEntries, if_neg he, List.map_cons,
        List.sum_cons, ih, List.map_cons, List.sum_cons]
      omega

theorem sum_length_push (d : Dict K (List V)) (k : K) (v : V) :
    ((d.push k v).values.map List.length).sum = (d.values.map List.length).sum + 1 := by
  simp only [values, List.map_map]
  exact sum_length_setEntries d.entries k v

theorem sum_length_foldl_push (vs : List V) (d : Dict K (List V)) :
    ((vs.foldl (fun d v => d.push (f v) v) d).values.map List.length).sum =
      (d.values.map List.length).sum + vs.length := by
  induction vs generalizing d with
  | nil => rfl
  | cons v vs ih =>
    rw [List.foldl_cons, ih, sum_length_push, List.length_cons]
    omega

end Grouping

/-- `if k not in d: d[k] = 0`, and then `d[k] += n`. -/
def tally (d : Dict K Int) (k : K) (n : Int) : Dict K Int := d.set k ((d.get? k).getD 0 + n)

theorem get?_foldl_tally (xs : List (K × Int)) (d : Dict K Int) (k : K) :
    ((xs.foldl (fun d x => d.tally x.1 x.2) d).get? k).getD 0 =
      (d.get? k).getD 0 + ((xs.filter fun x => x.1 = k).map Prod.snd).sum := by
  induction xs generalizing d with
  | nil => simp
  | cons x xs ih =>
    rw [List.foldl_cons, ih, tally, get?_set, List.filter_cons]
    by_cases h : x.1 = k
    · simp [h, Int.add_assoc]
    · simp [h, Ne.symm h]

end Dict
