import ClassWeave.Utility.Table

/-!
The tables that a resolver starts with. The order of the utilities is that of their rules in a
sheet; the global base styles come before those of single elements.
-/

namespace ClassWeave.Utility

def builtinUtilities : Assoc String :=
  [("block", "display: block"),
    ("inline-block", "display: inline-block"),
    ("inline", "display: inline"),
    ("flex", "display: flex"),
    ("inline-flex", "display: inline-flex"),
    ("grid", "display: grid"),
    ("hidden", "display: none"),
    ("static", "position: static"),
    ("fixed", "position: fixed"),
    ("absolute", "position: absolute"),
    ("relative", "position: relative"),
    ("sticky", "position: sticky"),
    ("inset-0", "top: 0; right: 0; bottom: 0; left: 0"),
    ("flex-row", "flex-direction: row"),
    ("flex-col", "flex-direction: column"),
    ("flex-wrap", "flex-wrap: wrap"),
    ("flex-1", "flex: 1 1 0%"),
    ("flex-auto", "flex: 1 1 auto"),
    ("flex-none", "flex: none"),
    ("items-start", "align-items: flex-start"),
    ("items-center", "align-items: center"),
    ("items-end", "align-items: flex-end"),
    ("justify-start", "justify-content: flex-start"),
    ("justify-center", "justify-content: center"),
    ("justify-between", "justify-content: space-between"),
    ("justify-end", "justify-content: flex-end"),
    ("gap-2", "gap: 0.5rem"),
    ("gap-4", "gap: 1rem"),
    ("m-0", "margin: 0px"),
    ("m-2", "margin: 0.5rem"),
    ("m-4", "margin: 1rem"),
    ("mx-auto", "margin-left: auto; margin-right: auto"),
    ("mt-4", "margin-top: 1rem"),
    ("mb-4", "margin-bottom: 1rem"),
    ("p-0", "padding: 0px"),
    ("p-2", "padding: 0.5rem"),
    ("p-4", "padding: 1rem"),
    ("px-4", "padding-left: 1rem; padding-right: 1rem"),
    ("py-2", "padding-top: 0.5rem; padding-bottom: 0.5rem"),
    ("w-full", "width: 100%"),
    ("w-1/2", "width: 50%"),
    ("h-full", "height: 100%"),
    ("min-h-screen", "min-height: 100vh"),
    ("text-left", "text-align: left"),
    ("text-center", "text-align: center"),
    ("text-right", "text-align: right"),
    ("text-sm", "font-size: 0.875rem; line-height: 1.25rem"),
    ("text-base", "font-size: 1rem; line-height: 1.5rem"),
    ("text-lg", "font-size: 1.125rem; line-height: 1.75rem"),
    ("text-xl", "font-size: 1.25rem; line-height: 1.75rem"),
    ("font-normal", "font-weight: 400"),
    ("font-semibold", "font-weight: 600"),
    ("font-bold", "font-weight: 700"),
    ("italic", "font-style: italic"),
    ("underline", "text-decoration: underline"),
    ("uppercase", "text-transform: uppercase"),
    ("truncate", "overflow: hidden; text-overflow: ellipsis; white-space: nowrap"),
    ("text-white", "--tw-text-opacity: 1; color: rgba(255, 255, 255, var(--tw-text-opacity))"),
    ("text-black", "--tw-text-opacity: 1; color: rgba(0, 0, 0, var(--tw-text-opacity))"),
    ("text-gray-500", "--tw-text-opacity: 1; color: rgba(107, 114, 128, var(--tw-text-opacity))"),
    ("text-red-500", "--tw-text-opacity: 1; color: rgba(239, 68, 68, var(--tw-text-opacity))"),
    ("text-blue-500", "--tw-text-opacity: 1; color: rgba(59, 130, 246, var(--tw-text-opacity))"),
    ("bg-white", "--tw-bg-opacity: 1; background-color: rgba(255, 255, 255, var(--tw-bg-opacity))"),
    ("bg-gray-100",
      "--tw-bg-opacity: 1; background-color: rgba(243, 244, 246, var(--tw-bg-opacity))"),
    ("bg-red-500", "--tw-bg-opacity: 1; background-color: rgba(239, 68, 68, var(--tw-bg-opacity))"),
    ("bg-blue-500",
      "--tw-bg-opacity: 1; background-color: rgba(59, 130, 246, var(--tw-bg-opacity))"),
    ("border", "border-width: 1px"),
    ("border-0", "border-width: 0px"),
    ("rounded", "border-radius: 0.25rem"),
    ("rounded-lg", "border-radius: 0.5rem"),
    ("rounded-full", "border-radius: 9999px"),
    ("shadow",
      "--tw-shadow: 0 1px 3px 0 rgba(0, 0, 0, 0.1), 0 1px 2px 0 rgba(0, 0, 0, 0.06); box-shadow: var(--tw-ring-offset-shadow, 0 0 #0000), var(--tw-ring-shadow, 0 0 #0000), var(--tw-shadow)"),
    ("opacity-0", "opacity: 0"),
    ("opacity-50", "opacity: 0.5"),
    ("opacity-100", "opacity: 1"),
    ("cursor-pointer", "cursor: pointer"),
    ("select-none", "user-select: none"),
    ("overflow-hidden", "overflow: hidden"),
    ("overflow-auto", "overflow: auto")]

def builtinPreflight : List PreflightEntry :=
  [⟨"*, ::before, ::after",
      "box-sizing: border-box; border-width: 0; border-style: solid; border-color: #e5e7eb", true⟩,
    ⟨"html",
      "line-height: 1.5; -webkit-text-size-adjust: 100%; font-family: ui-sans-serif, system-ui, -apple-system, 'Segoe UI', Roboto, 'Helvetica Neue', Arial, sans-serif", true⟩,
    ⟨"body", "margin: 0; font-family: inherit; line-height: inherit", true⟩,
    ⟨"hr", "height: 0; color: inherit; border-top-width: 1px", false⟩,
    ⟨"abbr[title]", "text-decoration: underline dotted", false⟩,
    ⟨"h1, h2, h3, h4, h5, h6", "font-size: inherit; font-weight: inherit; margin: 0", false⟩,
    ⟨"a", "color: inherit; text-decoration: inherit", false⟩,
    ⟨"b, strong", "font-weight: bolder", false⟩,
    ⟨"code, kbd, samp, pre",
      "font-family: ui-monospace, SFMono-Regular, Menlo, Monaco, Consolas, monospace; font-size: 1em", false⟩,
    ⟨"small", "font-size: 80%", false⟩,
    ⟨"sub, sup",
      "font-size: 75%; line-height: 0; position: relative; vertical-align: baseline", false⟩,
    ⟨"table", "text-indent: 0; border-color: inherit; border-collapse: collapse", false⟩,
    ⟨"button, input, optgroup, select, textarea",
      "font-family: inherit; font-size: 100%; line-height: inherit; color: inherit; margin: 0; padding: 0", false⟩,
    ⟨"button, select", "text-transform: none", false⟩,
    ⟨"button", "background-color: transparent; background-image: none; cursor: pointer", false⟩,
    ⟨"textarea", "resize: vertical", false⟩,
    ⟨"input::placeholder, textarea::placeholder", "opacity: 1; color: #9ca3af", false⟩,
    ⟨"blockquote, dl, dd, figure, p, pre", "margin: 0", false⟩,
    ⟨"fieldset", "margin: 0; padding: 0", false⟩,
    ⟨"ol, ul", "list-style: none; margin: 0; padding: 0", false⟩,
    ⟨"img, svg, video, canvas, audio, iframe, embed, object",
      "display: block; vertical-align: middle", false⟩,
    ⟨"img, video", "max-width: 100%; height: auto", false⟩]

def Table.builtin : Table := Table.empty.extend builtinUtilities builtinPreflight

end ClassWeave.Utility
