/-
  The texts that the command line shows about itself.
-/

namespace Patricia.Cli

/-- The version of the tool. -/
def version : String := "0.1.0"

/-- What a help text is about. -/
inductive Topic
  | top
  | verify
  | decode
deriving DecidableEq, Repr

/-- The lines of a text, each with its end. -/
def unlines (lines : List String) : String := String.join (lines.map (· ++ "\n"))

/-- The text shown for the version option. -/
def versionText : String := "trie-proof " ++ version ++ "\n"

/-- The help text of a topic. -/
def Topic.text : Topic → String
  | top => unlines
    ["usage: trie-proof [-h] [-v] [--log-level \x7bDEBUG,INFO,WARNING,ERROR\x7d]",
      "                  \x7bverify,decode\x7d ...",
      "",
      "This is the trie proof tool. It checks Merkle Patricia Trie proofs,",
      "such as the account and storage proofs returned by eth_getProof,",
      "against a trusted root.",
      "",
      "You can use this to run the following tools:",
      "    1. verify: Check that a proof justifies a key/value claim.",
      "    2. decode: Print the content of a single RLP encoded trie node.",
      "",
      "positional arguments:",
      "  \x7bverify,decode\x7d",
      "    verify              Verify a proof against a trusted root.",
      "    decode              Decode an RLP encoded trie node.",
      "",
      "options:",
      "  -h, --help            show this help message and exit",
      "  -v, --version         Show the version of the tool.",
      "  --log-level \x7bDEBUG,INFO,WARNING,ERROR\x7d",
      "                        Verbosity of the messages written to stderr."]
  | verify => unlines
    ["usage: trie-proof verify [-h] [--root ROOT] [--key KEY] [--value VALUE]",
      "                         [--proof-file PROOF_FILE] [--hash-key] [--raw-keys]",
      "                         [--show]",
      "                         [proof ...]",
      "",
      "positional arguments:",
      "  proof                 Hex encoded proof entries, starting with the root",
      "                        node.",
      "",
      "options:",
      "  -h, --help            show this help message and exit",
      "  --root ROOT           Trusted root.",
      "  --key KEY             Claimed key.",
      "  --value VALUE         Claimed value.",
      "  --proof-file PROOF_FILE",
      "                        JSON file holding a list of proof entries, or an",
      "                        object with a \"proof\" list and optionally \"root\",",
      "                        \"key\" and \"value\". Use \"stdin\" to read from the",
      "                        standard input.",
      "  --hash-key            Hash the key with keccak256 before looking it up.",
      "  --raw-keys            The trie stores keys verbatim (no keccak256 hashing).",
      "  --show                Print the nodes learned from a valid proof."]
  | decode => unlines
    ["usage: trie-proof decode [-h] node",
      "",
      "positional arguments:",
      "  node        Hex encoded node, as found in a proof.",
      "",
      "options:",
      "  -h, --help  show this help message and exit"]

end Patricia.Cli
