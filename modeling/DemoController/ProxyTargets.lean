import DemoController.Images
import DemoController.Proxy

/-!
# Where the proxy sends a request

The decoded path is pasted into the text of a URL and read as a URL again. The
segments survive exactly when the text is the path, with nothing in it that a URL
reads in another way, and the query when httpx has nothing to quote in it.
-/

namespace DemoController

open Lib

variable {app : App} {hx : Httpx} {s : Store} {req : BrowserRequest}

/-- The characters that end a host in a URL or set it apart. -/
def urlDelimiters : Text := ['/', '?', '#', '@', ':']

theorem slugChar_notMem_delimiters {c : Char} (h : isSlugChar c = true) : c ∉ urlDelimiters := by
  intro hc
  have hnone : urlDelimiters.all (fun d => !isSlugChar d) = true := by decide
  have hd := List.all_eq_true.mp hnone c hc
  rw [h] at hd
  cases hd

theorem serviceHost_free {record : DemoRecord} (hns : ∀ c ∈ urlDelimiters, c ∉ app.settings.namespace_) :
    ∀ c ∈ urlDelimiters, c ∉ app.serviceHost record := by
  intro c hc hin
  simp only [App.serviceHost, List.mem_append] at hin
  rcases hin with ((hin | hin) | hin) | hin
  · exact slugChar_notMem_delimiters (resourceName_chars _ _ _ c hin) hc
  · have hdot : urlDelimiters.all (fun d => !".".toList.contains d) = true := by decide
    have hd := List.all_eq_true.mp hdot c hc
    rw [List.contains_iff_mem.mpr hin] at hd
    cases hd
  · exact hns c hc hin
  · have hsvc : urlDelimiters.all (fun d => !".svc.cluster.local".toList.contains d) = true := by decide
    have hd := List.all_eq_true.mp hsvc c hc
    rw [List.contains_iff_mem.mpr hin] at hd
    cases hd

theorem decimal_free (n : ℤ) : ∀ c ∈ urlDelimiters, c ∉ decimal n := by
  intro c hc hin
  rcases decimal_chars n c hin with hd | rfl
  · exact slugChar_notMem_delimiters (slugChar_of_digit hd) hc
  · revert hc
    decide

/-! ### Reading the target -/

/-- What httpx reads from the text after the host and the port. -/
theorem parseUrl_eq (hx : Httpx) {host port : Text} (tail : Text) (hhost : ∀ c ∈ urlDelimiters, c ∉ host)
    (hport : ∀ c ∈ urlDelimiters, c ∉ port) :
    hx.parseUrl ("http://".toList ++ host ++ ":".toList ++ port ++ '/' :: tail) =
      { host, port
        path := quote hx.pathLegal ((('/' :: tail).takeWhile (· ≠ '#')).takeWhile (· ≠ '?'))
        query := quote hx.queryLegal (((('/' :: tail).takeWhile (· ≠ '#')).dropWhile (· ≠ '?')).drop 1) } := by
  have hfree {c : Char} (hc : c ∈ urlDelimiters) (hscheme : c ∉ "http://".toList) (hsep : c ∉ ":".toList) :
      c ∉ "http://".toList ++ host ++ ":".toList ++ port := by
    simp only [List.mem_append, not_or]
    exact ⟨⟨⟨hscheme, hhost c hc⟩, hsep⟩, hport c hc⟩
  have hhash := hfree (c := '#') (by decide) (by decide) (by decide)
  have hquestion := hfree (c := '?') (by decide) (by decide) (by decide)
  have hat : '@' ∉ host ++ ':' :: port := by
    simp only [List.mem_append, List.mem_cons, not_or]
    exact ⟨hhost _ (by decide), by decide, hport _ (by decide)⟩
  have hslash : '/' ∉ host ++ ':' :: port := by
    simp only [List.mem_append, List.mem_cons, not_or]
    exact ⟨hhost _ (by decide), by decide, hport _ (by decide)⟩
  have hcolon : ':' ∉ host := hhost _ (by decide)
  obtain ⟨more, hmore⟩ : ∃ more, (('/' :: tail).takeWhile (· ≠ '#')).takeWhile (· ≠ '?') = '/' :: more := ⟨_, rfl⟩
  have hrest : removePrefix "http://".toList
      ("http://".toList ++ host ++ ":".toList ++ port ++ '/' :: more) = host ++ ':' :: port ++ '/' :: more := by
    have hassoc : "http://".toList ++ host ++ ":".toList ++ port ++ '/' :: more =
        "http://".toList ++ (host ++ ':' :: port ++ '/' :: more) := by
      simp only [List.append_assoc]
      rfl
    rw [hassoc, removePrefix_append]
  unfold Httpx.parseUrl
  dsimp only
  rw [takeWhile_ne_append _ hhash, takeWhile_ne_append _ hquestion, dropWhile_ne_append _ hquestion, hmore, hrest,
    takeWhile_ne_append _ hslash, takeWhile_ne_cons, List.append_nil, afterLast_of_notMem hat,
    takeWhile_ne_append _ hcolon, takeWhile_ne_cons, List.append_nil, dropWhile_ne_append _ hcolon,
    dropWhile_ne_cons, dropWhile_ne_append _ hslash, dropWhile_ne_cons]
  rfl

/-- The path a URL shows of a text: it ends at the first `#` or `?`. -/
def shownPath (t : Text) : Text := t.takeWhile fun c => c ≠ '?' ∧ c ≠ '#'

theorem shownPath_isPrefix (t : Text) : shownPath t <+: t := List.takeWhile_prefix _

theorem shownPath_append (path query : Text) : shownPath (path ++ '?' :: query) = shownPath path := by
  rw [shownPath, List.takeWhile_append, List.takeWhile_cons_of_neg (by simp), List.append_nil, ← shownPath]
  split
  · next hlen => exact ((shownPath_isPrefix path).eq_of_length hlen).symm
  · rfl

theorem target_eq (record : DemoRecord) (port : ℤ) (path query : Text) : app.target record port path query =
    "http://".toList ++ app.serviceHost record ++ ":".toList ++ decimal port ++
      '/' :: (path ++ if query = [] then [] else '?' :: query) := by
  unfold App.target
  generalize "http://".toList ++ app.serviceHost record ++ ":".toList ++ decimal port = front
  rw [List.append_assoc _ path, List.append_assoc _ "/".toList]
  rfl

theorem parseUrl_target (hx : Httpx) (record : DemoRecord) (port : ℤ) (path query : Text)
    (hns : ∀ c ∈ urlDelimiters, c ∉ app.settings.namespace_) :
    ∃ read, hx.parseUrl (app.target record port path query) =
      { host := app.serviceHost record
        port := decimal port
        path := quote hx.pathLegal (shownPath ('/' :: path))
        query := quote hx.queryLegal read } ∧
      ('#' ∉ query → '?' ∉ path ∧ '#' ∉ path → read = query) := by
  refine ⟨((('/' :: (path ++ if query = [] then [] else '?' :: query)).takeWhile (· ≠ '#')).dropWhile (· ≠ '?')).drop 1,
    ?_, ?_⟩
  · rw [target_eq, parseUrl_eq hx _ (serviceHost_free hns) (decimal_free port), List.takeWhile_takeWhile]
    have hshown : ('/' :: (path ++ if query = [] then [] else '?' :: query)).takeWhile
        (fun c => decide (decide (c ≠ '?') = true ∧ decide (c ≠ '#') = true)) = shownPath ('/' :: path) := by
      simp only [decide_eq_true_eq]
      split
      · rw [List.append_nil]
        rfl
      · exact shownPath_append ('/' :: path) query
    rw [hshown]
  · rintro hquery ⟨hmark, hhash⟩
    have hpath : '#' ∉ '/' :: path := by
      intro hc
      rcases List.mem_cons.mp hc with hc | hc
      · cases hc
      · exact hhash hc
    have hpath' : '?' ∉ '/' :: path := by
      intro hc
      rcases List.mem_cons.mp hc with hc | hc
      · cases hc
      · exact hmark hc
    rw [← List.cons_append, takeWhile_ne_append _ hpath, dropWhile_ne_append _ hpath']
    split
    · next hnil =>
      rw [hnil]
      rfl
    · have hall : ('?' :: query).takeWhile (· ≠ '#') = '?' :: query := by
        refine List.takeWhile_eq_self_iff.mpr fun c hc => decide_eq_true ?_
        rintro rfl
        rcases List.mem_cons.mp hc with hc | hc
        · cases hc
        · exact hquery hc
      rw [hall, dropWhile_ne_cons]
      rfl

/-! ### The path -/

def spacedVisit : BrowserRequest := visit "/a%20b/c" "q=1&x=%2F" [] (by simp)

end DemoController
