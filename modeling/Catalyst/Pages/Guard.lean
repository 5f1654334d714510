import Catalyst.Library.HtmlText

/-!
# The guard of a page

The platform's own script of a page's frame, line by line. It is called with the
stored HTML as a text and writes it into the document as its last step.
-/

namespace Catalyst.Pages

def guardLines : List String :=
  ["(function (page) \x7b",
    "  \"use strict\";",
    "  try \x7b",
    "    guard();",
    "  \x7d catch (error) \x7b",
    "    // Without the guard there is no Page: what was parsed so far goes and nothing follows.",
    "    window.stop();",
    "    document.documentElement.remove();",
    "    throw error;",
    "  \x7d",
    "  function guard() \x7b",
    "  var apply = Reflect.apply;",
    "  var write = Document.prototype.write;",
    "  var describe = Object.getOwnPropertyDescriptor;",
    "  var define = Object.defineProperty;",
    "  function getter(prototype, name) \x7b",
    "    var get = describe(prototype, name).get;",
    "    return function (self) \x7b",
    "      return apply(get, self, []);",
    "    \x7d;",
    "  \x7d",
    "  function method(prototype, name) \x7b",
    "    var call = prototype[name];",
    "    return function (self, first, second, third) \x7b",
    "      return apply(call, self, [first, second, third]);",
    "    \x7d;",
    "  \x7d",
    "  var nodeType = getter(Node.prototype, \"nodeType\");",
    "  var localName = getter(Element.prototype, \"localName\");",
    "  var listLength = getter(NodeList.prototype, \"length\");",
    "  var listItem = method(NodeList.prototype, \"item\");",
    "  var attributesOf = getter(Element.prototype, \"attributes\");",
    "  var attributeCount = getter(NamedNodeMap.prototype, \"length\");",
    "  var attributeAt = method(NamedNodeMap.prototype, \"item\");",
    "  var attributeName = getter(Attr.prototype, \"localName\");",
    "  var removeAttributeNode = method(Element.prototype, \"removeAttributeNode\");",
    "  var removeElement = method(Element.prototype, \"remove\");",
    "  var queryElement = method(Element.prototype, \"querySelectorAll\");",
    "  var queryFragment = method(DocumentFragment.prototype, \"querySelectorAll\");",
    "  var queryDocument = method(Document.prototype, \"querySelectorAll\");",
    "  var recordType = getter(MutationRecord.prototype, \"type\");",
    "  var recordTarget = getter(MutationRecord.prototype, \"target\");",
    "  var recordAdded = getter(MutationRecord.prototype, \"addedNodes\");",
    "  var observe = method(MutationObserver.prototype, \"observe\");",
    "  var preventDefault = method(Event.prototype, \"preventDefault\");",
    "  var composedPath = method(Event.prototype, \"composedPath\");",
    "  var button = getter(MouseEvent.prototype, \"button\");",
    "  var modifiers = [",
    "    getter(MouseEvent.prototype, \"ctrlKey\"),",
    "    getter(MouseEvent.prototype, \"metaKey\"),",
    "    getter(MouseEvent.prototype, \"shiftKey\"),",
    "    getter(MouseEvent.prototype, \"altKey\")",
    "  ];",
    "  var attachShadow = method(Element.prototype, \"attachShadow\");",
    "  var listen = method(EventTarget.prototype, \"addEventListener\");",
    "  var closedHosts = new WeakSet();",
    "  var isClosedHost = method(WeakSet.prototype, \"has\");",
    "  var addClosedHost = method(WeakSet.prototype, \"add\");",
    "",
    "  var webRtc = [\"RTCPeerConnection\", \"webkitRTCPeerConnection\", \"mozRTCPeerConnection\"];",
    "  for (var index = 0; index < webRtc.length; index += 1) \x7b",
    "    try \x7b",
    "      delete window[webRtc[index]];",
    "    \x7d catch (error) \x7b\x7d",
    "  \x7d",
    "",
    "  function refuse(owner, name) \x7b",
    "    if (!(name in owner)) \x7b",
    "      return;",
    "    \x7d",
    "    define(owner, name, \x7b",
    "      value: function () \x7b",
    "        throw new TypeError(\"A Page cannot call \" + name + \"().\");",
    "      \x7d,",
    "      writable: false,",
    "      configurable: false",
    "    \x7d);",
    "  \x7d",
    "  refuse(Document.prototype, \"open\");",
    "  refuse(Document.prototype, \"write\");",
    "  refuse(Document.prototype, \"writeln\");",
    "  refuse(Document, \"parseHTMLUnsafe\");",
    "  refuse(Document, \"parseHTML\");",
    "  refuse(Element.prototype, \"setHTMLUnsafe\");",
    "  refuse(Element.prototype, \"setHTML\");",
    "  refuse(ShadowRoot.prototype, \"setHTMLUnsafe\");",
    "  refuse(ShadowRoot.prototype, \"setHTML\");",
    "",
    "  // By local name, so in every namespace: the address of a link in an SVG is one of XLink.",
    "  function isAddress(attribute) \x7b",
    "    var name = attributeName(attribute);",
    "    return name === \"href\" || name === \"xlink:href\" || name === \"ping\";",
    "  \x7d",
    "  var FRAMES = \"iframe,frame,frameset,object,embed,fencedframe,portal\";",
    "  function isElement(node) \x7b",
    "    return nodeType(node) === 1;",
    "  \x7d",
    "  function isLink(node) \x7b",
    "    var name = localName(node);",
    "    return name === \"a\" || name === \"area\";",
    "  \x7d",
    "  function isFrame(node) \x7b",
    "    var name = localName(node);",
    "    return (",
    "      name === \"iframe\" ||",
    "      name === \"frame\" ||",
    "      name === \"frameset\" ||",
    "      name === \"object\" ||",
    "      name === \"embed\" ||",
    "      name === \"fencedframe\" ||",
    "      name === \"portal\"",
    "    );",
    "  \x7d",
    "  function hasAddress(link) \x7b",
    "    var attributes = attributesOf(link);",
    "    for (var index = attributeCount(attributes) - 1; index >= 0; index -= 1) \x7b",
    "      if (isAddress(attributeAt(attributes, index))) \x7b",
    "        return true;",
    "      \x7d",
    "    \x7d",
    "    return false;",
    "  \x7d",
    "  function strip(link) \x7b",
    "    var attributes = attributesOf(link);",
    "    for (var index = attributeCount(attributes) - 1; index >= 0; index -= 1) \x7b",
    "      var attribute = attributeAt(attributes, index);",
    "      if (isAddress(attribute)) \x7b",
    "        removeAttributeNode(link, attribute);",
    "      \x7d",
    "    \x7d",
    "  \x7d",
    "  function each(list, act) \x7b",
    "    for (var index = 0, length = listLength(list); index < length; index += 1) \x7b",
    "      act(listItem(list, index));",
    "    \x7d",
    "  \x7d",
    "  function sweep(node) \x7b",
    "    var type = nodeType(node);",
    "    if (type === 1) \x7b",
    "      if (isFrame(node)) \x7b",
    "        removeElement(node);",
    "        return;",
    "      \x7d",
    "      if (isLink(node)) \x7b",
    "        strip(node);",
    "      \x7d",
    "    \x7d",
    "    var query = type === 1 ? queryElement : type === 9 ? queryDocument : type === 11 ? queryFragment : null;",
    "    if (query) \x7b",
    "      each(query(node, FRAMES), removeElement);",
    "      each(query(node, \"a,area\"), strip);",
    "    \x7d",
    "  \x7d",
    "  var observer = new MutationObserver(function (records) \x7b",
    "    for (var index = 0; index < records.length; index += 1) \x7b",
    "      var record = records[index];",
    "      if (recordType(record) === \"attributes\") \x7b",
    "        var target = recordTarget(record);",
    "        if (isLink(target) && hasAddress(target)) \x7b",
    "          strip(target);",
    "        \x7d",
    "      \x7d else \x7b",
    "        each(recordAdded(record), sweep);",
    "      \x7d",
    "    \x7d",
    "  \x7d);",
    "  // No attribute filter: a filter leaves out every attribute that has a namespace.",
    "  var watched = \x7b subtree: true, childList: true, attributes: true \x7d;",
    "  function watch(root) \x7b",
    "    observe(observer, root, watched);",
    "    sweep(root);",
    "  \x7d",
    "  watch(document);",
    "",
    "  // A shadow tree is not below the document, so each one is watched as it is made.",
    "  define(Element.prototype, \"attachShadow\", \x7b",
    "    value: function (init) \x7b",
    "      var root = attachShadow(this, init);",
    "      if (init && init.mode !== \"open\") \x7b",
    "        addClosedHost(closedHosts, this);",
    "      \x7d",
    "      watch(root);",
    "      return root;",
    "    \x7d,",
    "    writable: false,",
    "    configurable: false",
    "  \x7d);",
    "",
    "  function cancel(event) \x7b",
    "    var modified = button(event) !== 0;",
    "    for (var index = 0; index < modifiers.length; index += 1) \x7b",
    "      modified = modified || modifiers[index](event);",
    "    \x7d",
    "    var path = composedPath(event);",
    "    for (var step = 0; step < path.length; step += 1) \x7b",
    "      var node = path[step];",
    "      if (node === window || !isElement(node)) \x7b",
    "        continue;",
    "      \x7d",
    "      if (",
    "        (isLink(node) && (modified || hasAddress(node))) ||",
    "        (modified && isClosedHost(closedHosts, node))",
    "      ) \x7b",
    "        preventDefault(event);",
    "        return;",
    "      \x7d",
    "    \x7d",
    "  \x7d",
    "  var events = [\"click\", \"auxclick\", \"dragstart\"];",
    "  for (var kind = 0; kind < events.length; kind += 1) \x7b",
    "    listen(window, events[kind], cancel, true);",
    "  \x7d",
    "",
    "  // The Page, now that everything above holds. The parser reads it from here on.",
    "  apply(write, document, [page]);",
    "  \x7d",
    "\x7d)"]

/-- `PAGE_GUARD_SOURCE` -/
def pageGuardSource : List Char := Library.joinWith '\n' (guardLines.map String.toList)

def PlainText (t : List Char) : Prop := '\x00' ∉ t ∧ '\r' ∉ t ∧ Library.Html.Tagless t

instance : DecidablePred PlainText := fun t =>
  inferInstanceAs (Decidable ('\x00' ∉ t ∧ '\r' ∉ t ∧ Library.Html.Tagless t))

theorem plain_ofList (h : PlainText t) : PlainText (String.ofList t).toList := by
  rwa [String.toList_ofList]

theorem guardLines_plain : ∀ l ∈ guardLines, PlainText l.toList := by
  unfold guardLines
  -- A literal is the text of its characters, which the kernel need not decode.
  repeat refine List.forall_mem_cons.mpr ⟨plain_ofList (by decide +kernel), ?_⟩
  exact List.forall_mem_nil _

theorem not_mem_pageGuardSource (hc : c ≠ '\n') (h : ∀ l ∈ guardLines, c ∉ l.toList) :
    c ∉ pageGuardSource := fun hmem => by
  obtain he | ⟨t, ht, hct⟩ := Library.mem_joinWith hmem
  · exact hc he
  · obtain ⟨l, hl, rfl⟩ := List.mem_map.mp ht
    exact h l hl hct

theorem tagless_pageGuardSource : Library.Html.Tagless pageGuardSource :=
  Library.Html.tagless_joinWith (by decide) fun t ht => by
    obtain ⟨l, hl, rfl⟩ := List.mem_map.mp ht
    exact (guardLines_plain l hl).2.2

end Catalyst.Pages
